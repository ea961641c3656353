import Hyperfetch.Weft.Durable
import Hyperfetch.Weft.Pieces
import Hyperfetch.Weft.TSys

/-!
# What an HLS download resumes from (`hls.rs`)

`HlsEngine::prepare`, how `download_tracks` opens a track's `.part`,
`write_segments` with its saver's thread and `ResumeState::save`, in the steps
between which the machine may go down. A file's writes are durable once it is
synced; a state file is replaced, a file renamed or removed, in one step.

Every run is of one stream: its links, and so `exact`, may differ from run to
run, its segments' data does not. What `part_matches` finds out, and whether a
step of the disk fails, comes with the events. Left out: the digest, and the
fetches, of which the writer sees pieces of consecutive segments.
-/

namespace Hyperfetch.Hls

open Weft

variable {φ : Type}

/-- Of the segments' full links, and of the stream whatever their queries. -/
structure Fingerprints (φ : Type) where
  exact : φ
  stream : φ

/-- What a `.part.hlsstate` says its `.part` holds. -/
structure ResumeState (φ : Type) where
  fingerprints : Fingerprints φ
  segments : Nat
  bytes : Nat

/-- How much of a stream: segments, and their bytes. -/
abbrev Held := Nat × Nat

/-- Where a `save` is, the saver's or the last one. -/
inductive Saver
  | idle
  | flushing (held : Held)
  /-- The part is synced, the state file is to be replaced. -/
  | replacing (held : Held)
  | failed

/-- `write_segments`, once it writes. -/
structure Writer (φ : Type) where
  fingerprints : Fingerprints φ
  held : Held
  hashed : Bool
  /-- How many segments the last save that was handed over covers. -/
  saved : Nat
  /-- A piece was written since the timer was last looked at. -/
  due : Bool
  saver : Saver

inductive Run (φ : Type)
  | idle
  | prepared (fingerprints : Fingerprints φ) (held : Held)
  | opened (fingerprints : Fingerprints φ) (held : Held)
  /-- After `set_len`. -/
  | sized (fingerprints : Fingerprints φ) (held : Held)
  | hashing (fingerprints : Fingerprints φ) (held : Held)
  | writing (writer : Writer φ)
  /-- The loop is over, and waits for the saver. -/
  | joining (writer : Writer φ) (failed : Bool)
  | finishing (writer : Writer φ)
  /-- The last save. -/
  | saving (writer : Writer φ)
  /-- The part has its final name, the state file is still there. -/
  | renamed

/-- The disk, and the run that works on it. -/
structure Track (φ : Type) where
  part : Option (DiskFile UInt8)
  state : Option (ResumeState φ)
  /-- What was given the final name. -/
  finished : List (List UInt8)
  run : Run φ

/-- The data of the first `n` segments. -/
def dataOf (segments : List (List UInt8)) (n : Nat) : List UInt8 := (segments.take n).flatten

/-- The data of the `k` segments from `n` on. -/
def pieceOf (segments : List (List UInt8)) (n k : Nat) : List UInt8 := ((segments.drop n).take k).flatten

namespace Run

/-- The writer whose saver may be at work. -/
def writer? : Run φ → Option (Writer φ)
  | .writing writer | .joining writer _ | .saving writer => some writer
  | _ => none

def setSaver (saver : Saver) : Run φ → Run φ
  | .writing writer => .writing { writer with saver }
  | .joining writer failed => .joining { writer with saver } failed
  | .saving writer => .saving { writer with saver }
  | run => run

/-- Nothing is written, and a new part has no state yet. -/
def early : Run φ → Bool
  | .idle | .prepared .. | .opened .. | .sized .. => true
  | _ => false

end Run

namespace Track

/-- `prepare`: how much a run goes on from; `none` where the part is left
alone. `matched` is what `part_matches` finds. -/
def prepare [DecidableEq φ] (s : Track φ) (total : Nat) (fingerprints : Fingerprints φ) (matched : Bool) :
    Option Held :=
  match s.part with
  | none => some (0, 0)
  | some part =>
    match s.state with
    | none => none
    | some state =>
      let resumable := (1 ≤ state.segments ∧ state.segments ≤ total) ∧ state.bytes ≤ part.now.length
      if state.fingerprints.exact = fingerprints.exact then
        -- surely this stream: restart it in place if its state is unusable
        some (if resumable then (state.segments, state.bytes) else (0, 0))
      else if state.fingerprints.stream = fingerprints.stream ∧ resumable ∧ matched then
        some (state.segments, state.bytes)
      else none

inductive Event (φ : Type)
  | prepare (exact : φ) (matched : Bool)
  | open_
  | setLen
  /-- The state of a new part is saved; it holds no bytes to sync. -/
  | saveNew
  /-- `hash_part` got through what an earlier run wrote, or the queue closed. -/
  | hash (through : Bool)
  /-- The next `k` segments come in a piece, and are written. -/
  | piece (k : Nat)
  /-- Only `n` bytes of the piece are written, and that fails the writer. -/
  | torn (k n : Nat)
  /-- The timer is up: what is written goes to the saver if it waits for it. -/
  | handOver
  | flush
  | replace
  | saverFails
  /-- All is written, the queue closed, or the saver failed. -/
  | leave
  | join
  | fsync
  | rename
  | remove (removed : Bool)
  | lastSave
  /-- The run is over: a step of it failed, or the process went. -/
  | ends
  /-- The machine goes down, and `content` is what is left of the part. -/
  | crash (content : List UInt8)

/-- Puts `data` where the writer stands, and the writer's next stage. -/
def put (s : Track φ) (writer : Writer φ) (data : List UInt8) (run : Run φ) : Track φ :=
  { s with
    part := s.part.map (·.change fun xs => splice xs writer.held.2 data)
    run }

def step [DecidableEq φ] (segments : List (List UInt8)) (stream : φ) (s : Track φ) : Event φ → Option (Track φ)
  | .prepare exact matched =>
    match s.run with
    | .idle => (s.prepare segments.length ⟨exact, stream⟩ matched).map fun held =>
      { s with run := .prepared ⟨exact, stream⟩ held }
    | _ => none
  | .open_ =>
    match s.run with
    | .prepared fingerprints held =>
      some { s with
        part := some (s.part.getD ⟨[], []⟩)
        run := .opened fingerprints held }
    | _ => none
  | .setLen =>
    match s.run with
    | .opened fingerprints held =>
      some { s with
        part := s.part.map (·.change (Weft.setLen 0 held.2))
        run := .sized fingerprints held }
    | _ => none
  | .saveNew =>
    match s.run with
    | .sized fingerprints held =>
      some { s with
        state := if held.1 = 0 then some ⟨fingerprints, held.1, held.2⟩ else s.state
        run := .hashing fingerprints held }
    | _ => none
  | .hash through =>
    match s.run with
    | .hashing fingerprints held =>
      some { s with run := .writing ⟨fingerprints, held, through, held.1, false, .idle⟩ }
    | _ => none
  | .piece k =>
    match s.run with
    | .writing writer =>
      let data := pieceOf segments writer.held.1 k
      if writer.held.1 < segments.length ∧ writer.held.1 + k ≤ segments.length then
        some (s.put writer data
          (.writing { writer with
            held := (writer.held.1 + k, writer.held.2 + data.length)
            due := true }))
      else none
    | _ => none
  | .torn k n =>
    match s.run with
    | .writing writer =>
      if writer.held.1 < segments.length ∧ writer.held.1 + k ≤ segments.length then
        some (s.put writer ((pieceOf segments writer.held.1 k).take n) (.joining writer true))
      else none
    | _ => none
  | .handOver =>
    match s.run with
    | .writing writer =>
      if writer.due then
        match writer.saver with
        | .idle => some { s with
            run := .writing { writer with saved := writer.held.1, due := false, saver := .flushing writer.held } }
        | .failed => some { s with run := .joining writer false }
        -- still saving: the next piece tries again
        | _ => some { s with run := .writing { writer with due := false } }
      else none
    | _ => none
  | .flush =>
    match s.run.writer? with
    | some writer =>
      match writer.saver with
      | .flushing held =>
        some { s with
          part := if held.2 > 0 then s.part.map DiskFile.sync else s.part
          run := s.run.setSaver (.replacing held) }
      | _ => none
    | none => none
  | .replace =>
    match s.run.writer? with
    | some writer =>
      match writer.saver with
      | .replacing held =>
        some { s with
          state := some ⟨writer.fingerprints, held.1, held.2⟩
          run := s.run.setSaver .idle }
      | _ => none
    | none => none
  | .saverFails => s.run.writer?.map fun _ => { s with run := s.run.setSaver .failed }
  | .leave =>
    match s.run with
    | .writing writer => some { s with run := .joining writer false }
    | _ => none
  | .join =>
    match s.run with
    | .joining writer failed =>
      match writer.saver with
      | .idle => some { s with run := if failed then .idle else .finishing writer }
      | .failed => some { s with run := .idle }
      | _ => none
    | _ => none
  | .fsync =>
    match s.run with
    | .finishing writer =>
      if writer.hashed ∧ writer.held.1 = segments.length then some { s with part := s.part.map DiskFile.sync }
      else none
    | _ => none
  | .rename =>
    match s.run, s.part with
    | .finishing writer, some part =>
      if writer.hashed ∧ writer.held.1 = segments.length then
        some { s with part := none, finished := part.now :: s.finished, run := .renamed }
      else none
    | _, _ => none
  | .remove removed =>
    match s.run with
    | .renamed =>
      some { s with
        state := if removed then none else s.state
        run := .idle }
    | _ => none
  | .lastSave =>
    match s.run with
    | .finishing writer =>
      some { s with
        run := if writer.held.1 > writer.saved then .saving { writer with saver := .flushing writer.held } else .idle }
    | _ => none
  | .ends => some { s with run := .idle }
  | .crash content =>
    match s.part with
    | none => some { s with run := .idle }
    | some part =>
      if part.Survives content then some { s with part := some (DiskFile.crashed content), run := .idle } else none

/-- There is no part yet, and no state. -/
def starts (s : Track φ) : Prop := s.part = none ∧ s.state = none ∧ s.finished = [] ∧ s.run = .idle

end Track

/-- A track of `stream`, downloaded in as many runs as it takes. -/
def tracks [DecidableEq φ] (segments : List (List UInt8)) (stream : φ) : Machine (Track φ) (Track.Event φ) where
  init := Track.starts
  step := Track.step segments stream

/-! ## Prefixes of a stream -/

theorem dataOf_zero (segments : List (List UInt8)) : dataOf segments 0 = [] := by
  simp [dataOf]

theorem dataOf_starts (segments : List (List UInt8)) {m n : Nat} (h : m ≤ n) :
    dataOf segments m <+: dataOf segments n :=
  (List.take_prefix_take_left h).flatten

theorem dataOf_add (segments : List (List UInt8)) (n k : Nat) :
    dataOf segments (n + k) = dataOf segments n ++ pieceOf segments n k := by
  simp only [dataOf, pieceOf, List.take_add, List.flatten_append]

theorem splice_length {α : Type} (xs data : List α) : splice xs xs.length data = xs ++ data := by
  simp [splice]

/-- Every content the part may come back with starts with `xs`. -/
def Firm (xs : List UInt8) (part : DiskFile UInt8) : Prop := ∀ c ∈ part.versions, xs <+: c

/-- The part is empty, whatever a crash does. -/
def Blank (part : DiskFile UInt8) : Prop := ∀ c ∈ part.versions, c = []

theorem firm_nil (part : DiskFile UInt8) : Firm [] part := fun _ _ => List.nil_prefix

theorem Firm.mono {xs ys : List UInt8} {part : DiskFile UInt8} (h : Firm xs part) (hys : ys <+: xs) :
    Firm ys part := fun c hc => hys.trans (h c hc)

theorem Firm.change {xs : List UInt8} {part : DiskFile UInt8} {write : List UInt8 → List UInt8}
    (h : Firm xs part) (hnew : xs <+: write part.now) : Firm xs (part.change write) :=
  DiskFile.forall_change h hnew

theorem firm_sync {xs : List UInt8} {part : DiskFile UInt8} (h : xs <+: part.now) : Firm xs part.sync := by
  intro c hc
  cases List.mem_singleton.mp hc
  exact h

theorem Firm.crashed {xs content : List UInt8} {part : DiskFile UInt8} (h : Firm xs part)
    (hcrash : part.Survives content) : Firm xs (DiskFile.crashed content) := by
  intro c hc
  cases List.mem_singleton.mp hc
  exact hcrash.starts h

/-- A write at the end changes nothing before it. -/
theorem Firm.append {xs : List UInt8} {part : DiskFile UInt8} (h : Firm xs part) {pos : Nat}
    (hpos : part.now.length = pos) (data : List UInt8) : Firm xs (part.change fun ys => splice ys pos data) := by
  subst hpos
  refine h.change ?_
  show xs <+: splice part.now part.now.length data
  rw [splice_length]
  exact (h _ part.now_mem_versions).trans (List.prefix_append _ _)

theorem Blank.crashed {content : List UInt8} {part : DiskFile UInt8} (h : Blank part)
    (hcrash : part.Survives content) : Blank (DiskFile.crashed content) := by
  intro c hc
  cases List.mem_singleton.mp hc
  exact List.length_eq_zero_iff.mp (hcrash.length fun c hc => by rw [h c hc]; rfl)

/-! ## The invariant -/

/-- The bytes are those of so many segments. -/
structure Right (segments : List (List UInt8)) (held : Held) : Prop where
  within : held.1 ≤ segments.length
  bytes : held.2 = (dataOf segments held.1).length

theorem right_zero (segments : List (List UInt8)) : Right segments (0, 0) :=
  ⟨Nat.zero_le _, by rw [dataOf_zero]; rfl⟩

/-- A save claims no more than was written when it was handed over, and once
synced no more than is durable. -/
def Saver.Sound (segments : List (List UInt8)) (part : DiskFile UInt8) (written : Nat) : Saver → Prop
  | .idle | .failed => True
  | .flushing held => Right segments held ∧ held.1 ≤ written
  | .replacing held => Right segments held ∧ held.1 ≤ written ∧ Firm (dataOf segments held.1) part

structure Writer.Sound (segments : List (List UInt8)) (part : Option (DiskFile UInt8)) (writer : Writer φ) :
    Prop where
  held : Right segments writer.held
  part : ∃ file, part = some file ∧ dataOf segments writer.held.1 <+: file.now ∧
    writer.saver.Sound segments file writer.held.1

/-- The part holds the first `n` segments and no more. -/
def Exact (segments : List (List UInt8)) (part : Option (DiskFile UInt8)) (n : Nat) : Prop :=
  ∀ file, part = some file → file.now = dataOf segments n

/-- A run starts anew where the state says nothing of what is there, or goes
on from the state. -/
structure Resumes (segments : List (List UInt8)) (part : Option (DiskFile UInt8))
    (state : Option (ResumeState φ)) (held : Held) : Prop where
  right : Right segments held
  from_ : (held.1 = 0 ∧ ∀ st file, state = some st → part = some file →
      dataOf segments st.segments = [] ∨ Blank file) ∨
    (∃ st, state = some st ∧ st.segments = held.1) ∧ ∃ file, part = some file ∧ Firm (dataOf segments held.1) file

def Run.Sound (segments : List (List UInt8)) (part : Option (DiskFile UInt8)) (state : Option (ResumeState φ)) :
    Run φ → Prop
  | .idle => True
  | .prepared _ held => Resumes segments part state held
  | .opened _ held => Resumes segments part state held ∧ ∃ file, part = some file
  | .sized _ held => Resumes segments part state held ∧ ∃ file, part = some file ∧ file.now = dataOf segments held.1
  | .hashing _ held => Right segments held ∧ ∃ file, part = some file ∧ file.now = dataOf segments held.1
  | .writing writer | .finishing writer => writer.Sound segments part ∧ Exact segments part writer.held.1
  | .joining writer failed =>
    writer.Sound segments part ∧ (failed = false → Exact segments part writer.held.1)
  | .saving writer => writer.Sound segments part
  | .renamed => part = none

/-- What the state names is right, and durable unless a new part has no state
of its own yet. -/
def StateSound (segments : List (List UInt8)) (early : Bool) (part : Option (DiskFile UInt8))
    (state : Option (ResumeState φ)) : Prop :=
  ∀ st, state = some st → Right segments (st.segments, st.bytes) ∧
    ∀ file, part = some file → Firm (dataOf segments st.segments) file ∨ (early = true ∧ Blank file)

structure Track.Sound (segments : List (List UInt8)) (s : Track φ) : Prop where
  state : StateSound segments s.run.early s.part s.state
  run : s.run.Sound segments s.part s.state
  finished : ∀ c ∈ s.finished, c = segments.flatten

/-! ## A run starts -/

/-- `prepare` goes on from a state that is durable, or starts anew. -/
theorem resumes_prepare [DecidableEq φ] {segments : List (List UInt8)} {s : Track φ} {early : Bool}
    (h : StateSound segments early s.part s.state) {fingerprints : Fingerprints φ} {matched : Bool} {held : Held}
    (hprepare : s.prepare segments.length fingerprints matched = some held) :
    Resumes segments s.part s.state held := by
  unfold Track.prepare at hprepare
  split at hprepare
  · rename_i hpart
    cases hprepare
    exact ⟨right_zero segments, .inl ⟨rfl, fun st file _ hfile => by simp [hpart] at hfile⟩⟩
  · rename_i part hpart
    split at hprepare
    · cases hprepare
    · rename_i st hst
      obtain ⟨hright, hfile⟩ := h st hst
      have hbytes : st.bytes = (dataOf segments st.segments).length := hright.bytes
      -- an empty part is long enough for no state but one of no bytes
      have hfirm : st.bytes ≤ part.now.length → Firm (dataOf segments st.segments) part := by
        intro hlen
        refine (hfile part hpart).elim id fun hblank => ?_
        have hnow : part.now = [] := hblank.2 _ part.now_mem_versions
        have hnil : dataOf segments st.segments = [] := by
          rw [hnow, hbytes] at hlen
          exact List.length_eq_zero_iff.mp (Nat.le_zero.mp hlen)
        rw [hnil]
        exact firm_nil part
      have hon : st.bytes ≤ part.now.length → Resumes segments s.part s.state (st.segments, st.bytes) := fun hlen =>
        ⟨hright, .inr ⟨⟨st, hst, rfl⟩, part, hpart, hfirm hlen⟩⟩
      dsimp only at hprepare
      split at hprepare
      · split at hprepare
        · rename_i hresumable
          cases hprepare
          exact hon hresumable.2
        · rename_i hunusable
          cases hprepare
          refine ⟨right_zero segments, .inl ⟨rfl, fun st' file hst' hfile' => ?_⟩⟩
          rw [hst] at hst'
          rw [hpart] at hfile'
          cases hst'
          cases hfile'
          rcases hfile part hpart with hfirm' | ⟨_, hblank⟩
          · left
            -- the part holds what the state names, so it names no segment
            have hlen : st.bytes ≤ part.now.length := hbytes ▸ (hfirm' _ part.now_mem_versions).length_le
            have hzero : st.segments = 0 := by
              by_contra hne
              exact hunusable ⟨⟨Nat.one_le_iff_ne_zero.mpr hne, hright.within⟩, hlen⟩
            rw [hzero, dataOf_zero]
          · exact .inr hblank
      · split at hprepare
        · rename_i hresumable
          cases hprepare
          exact hon hresumable.2.1.2
        · cases hprepare

theorem Resumes.opened {segments : List (List UInt8)} {part : Option (DiskFile UInt8)}
    {state : Option (ResumeState φ)} {held : Held} (h : Resumes segments part state held) :
    Resumes segments (some (part.getD ⟨[], []⟩)) state held := by
  cases part with
  | some file => exact h
  | none =>
    refine ⟨h.right, ?_⟩
    rcases h.from_ with ⟨hzero, _⟩ | ⟨_, file, hfile, _⟩
    · refine .inl ⟨hzero, fun st file _ hfile => .inr ?_⟩
      cases hfile
      intro c hc
      exact List.mem_singleton.mp hc
    · cases hfile

theorem StateSound.opened {segments : List (List UInt8)} {part : Option (DiskFile UInt8)}
    {state : Option (ResumeState φ)} (h : StateSound segments true part state) :
    StateSound segments true (some (part.getD ⟨[], []⟩)) state := by
  cases part with
  | some file => exact h
  | none =>
    refine fun st hst => ⟨(h st hst).1, fun file hfile => .inr ⟨rfl, fun c hc => ?_⟩⟩
    cases hfile
    exact List.mem_singleton.mp hc

/-- What `set_len` cuts the part to. -/
theorem Resumes.sized {segments : List (List UInt8)} {file : DiskFile UInt8} {state : Option (ResumeState φ)}
    {held : Held} (h : Resumes segments (some file) state held) :
    Weft.setLen 0 held.2 file.now = dataOf segments held.1 := by
  rcases h.from_ with ⟨hzero, _⟩ | ⟨_, file', hfile', hfirm⟩
  · rw [h.right.bytes, hzero, dataOf_zero]
    exact setLen_of_le (Nat.zero_le _)
  · cases hfile'
    have hstarts := hfirm _ file.now_mem_versions
    rw [h.right.bytes, setLen_of_le hstarts.length_le]
    exact (List.prefix_iff_eq_take.mp hstarts).symm

theorem Resumes.changed {segments : List (List UInt8)} {file : DiskFile UInt8} {state : Option (ResumeState φ)}
    {held : Held} (h : Resumes segments (some file) state held) :
    Resumes segments (some (file.change (Weft.setLen 0 held.2))) state held := by
  have hsized := h.sized
  refine ⟨h.right, h.from_.imp ?_ ?_⟩
  · rintro ⟨hzero, hnothing⟩
    refine ⟨hzero, fun st file' hst hfile' => (hnothing st file hst rfl).imp_right fun hblank => ?_⟩
    cases hfile'
    refine DiskFile.forall_change hblank ?_
    rw [hsized, hzero, dataOf_zero]
  · rintro ⟨hst, file', hfile', hfirm⟩
    cases hfile'
    refine ⟨hst, _, rfl, hfirm.change ?_⟩
    rw [hsized]

/-- What the state names is there, but where a run starts anew in an empty part. -/
theorem Resumes.names {segments : List (List UInt8)} {file : DiskFile UInt8} {state : Option (ResumeState φ)}
    {held : Held} (h : Resumes segments (some file) state held) :
    ∀ st, state = some st → Firm (dataOf segments st.segments) file ∨ (held.1 = 0 ∧ Blank file) := by
  intro st hst
  rcases h.from_ with ⟨hzero, hnothing⟩ | ⟨⟨st', hst', hsame⟩, file', hfile', hfirm⟩
  · rcases hnothing st file hst rfl with hnil | hblank
    · exact .inl (hnil ▸ firm_nil file)
    · exact .inr ⟨hzero, hblank⟩
  · rw [hst] at hst'
    cases hst'
    cases hfile'
    exact .inl (hsame ▸ hfirm)

theorem Saver.Sound.mono {segments : List (List UInt8)} {part : DiskFile UInt8} {saver : Saver} {m n : Nat}
    (h : saver.Sound segments part m) (hle : m ≤ n) : saver.Sound segments part n := by
  cases saver with
  | idle => trivial
  | failed => trivial
  | flushing held => exact ⟨h.1, h.2.trans hle⟩
  | replacing held => exact ⟨h.1, h.2.1.trans hle, h.2.2⟩

theorem Saver.Sound.sync {segments : List (List UInt8)} {part : DiskFile UInt8} {saver : Saver} {n : Nat}
    (h : saver.Sound segments part n) (hstarts : dataOf segments n <+: part.now) :
    saver.Sound segments part.sync n := by
  cases saver with
  | idle => trivial
  | failed => trivial
  | flushing held => exact h
  | replacing held => exact ⟨h.1, h.2.1, firm_sync ((dataOf_starts segments h.2.1).trans hstarts)⟩

namespace Track

theorem Sound.sized {segments : List (List UInt8)} {s : Track φ} (h : s.Sound segments)
    {fingerprints : Fingerprints φ} {held : Held} (hrun : s.run = .opened fingerprints held) :
    Sound segments { s with
      part := s.part.map (·.change (Weft.setLen 0 held.2))
      run := .sized fingerprints held } := by
  obtain ⟨hresumes, file, hfile⟩ : Run.Sound segments s.part s.state (.opened fingerprints held) := hrun ▸ h.run
  rw [hfile] at hresumes
  have hchanged := hresumes.changed
  simp only [hfile, Option.map_some]
  refine ⟨fun st hst => ⟨(h.state st hst).1, fun file' hfile' => ?_⟩, ⟨hchanged, _, rfl, hresumes.sized⟩, h.finished⟩
  cases hfile'
  exact (hchanged.names st hst).imp_right fun hblank => ⟨rfl, hblank.2⟩

/-- Before anything is written the state is the new part's own, or durable. -/
theorem Sound.named {segments : List (List UInt8)} {s : Track φ} (h : s.Sound segments)
    {fingerprints : Fingerprints φ} {held : Held} (hrun : s.run = .sized fingerprints held) :
    Sound segments { s with
      state := if held.1 = 0 then some ⟨fingerprints, held.1, held.2⟩ else s.state
      run := .hashing fingerprints held } := by
  obtain ⟨hresumes, file, hfile, hnow⟩ : Run.Sound segments s.part s.state (.sized fingerprints held) :=
    hrun ▸ h.run
  refine ⟨fun st hst => ?_, ⟨hresumes.right, file, hfile, hnow⟩, h.finished⟩
  dsimp only at hst
  split at hst
  · rename_i hzero
    cases hst
    refine ⟨hresumes.right, fun file' _ => .inl ?_⟩
    show Firm (dataOf segments held.1) file'
    rw [hzero, dataOf_zero]
    exact firm_nil file'
  · rename_i hne
    refine ⟨(h.state st hst).1, fun file' hfile' => .inl ?_⟩
    rw [hfile'] at hresumes
    exact (hresumes.names st hst).resolve_right fun hblank => hne hblank.1

/-! ## The writer -/

/-- Once a run writes, what the state names is durable. -/
theorem Sound.firm {segments : List (List UInt8)} {s : Track φ} (h : s.Sound segments)
    (hlate : s.run.early = false) {st : ResumeState φ} (hst : s.state = some st) {file : DiskFile UInt8}
    (hfile : s.part = some file) : Firm (dataOf segments st.segments) file :=
  ((h.state st hst).2 file hfile).resolve_right fun hblank => by simp [hlate] at hblank

/-- Writing on at the end of the part loses nothing. -/
theorem Sound.put {segments : List (List UInt8)} {s : Track φ} (h : s.Sound segments) {writer : Writer φ}
    (hrun : s.run = .writing writer) (data : List UInt8) {run : Run φ}
    (hnext : ∀ file, s.part = some file → file.now = dataOf segments writer.held.1 →
      writer.saver.Sound segments (file.change fun xs => splice xs writer.held.2 data) writer.held.1 →
      run.Sound segments (some (file.change fun xs => splice xs writer.held.2 data)) s.state) :
    Sound segments (s.put writer data run) := by
  obtain ⟨hwriter, hexact⟩ : Run.Sound segments s.part s.state (.writing writer) := hrun ▸ h.run
  obtain ⟨file, hfile, _, hsaver⟩ := hwriter.part
  have hnow := hexact file hfile
  have hlen : file.now.length = writer.held.2 := by rw [hnow, hwriter.held.bytes]
  have hlate : s.run.early = false := by rw [hrun]; rfl
  have hpart : (s.put writer data run).part = some (file.change fun xs => splice xs writer.held.2 data) := by
    simp only [Track.put, hfile, Option.map_some]
  refine ⟨fun st hst => ⟨(h.state st hst).1, fun file' hfile' => .inl ?_⟩, ?_, h.finished⟩
  · rw [hpart] at hfile'
    cases hfile'
    exact (h.firm hlate hst hfile).append hlen data
  · rw [hpart]
    refine hnext file hfile hnow ?_
    cases hs : writer.saver with
    | idle => trivial
    | failed => trivial
    | flushing held => rw [hs] at hsaver; exact hsaver
    | replacing held =>
      rw [hs] at hsaver
      exact ⟨hsaver.1, hsaver.2.1, hsaver.2.2.append hlen data⟩

theorem Sound.piece {segments : List (List UInt8)} {s : Track φ} (h : s.Sound segments) {writer : Writer φ}
    (hrun : s.run = .writing writer) {k : Nat} (hk : writer.held.1 + k ≤ segments.length) :
    Sound segments (s.put writer (pieceOf segments writer.held.1 k) (.writing { writer with
      held := (writer.held.1 + k, writer.held.2 + (pieceOf segments writer.held.1 k).length)
      due := true })) := by
  have hheld : Right segments writer.held := by
    have hsound : Run.Sound segments s.part s.state (.writing writer) := hrun ▸ h.run
    exact hsound.1.held
  refine h.put hrun _ fun file hfile hnow hsaver => ?_
  have hadd := dataOf_add segments writer.held.1 k
  have hall : (file.change fun xs => splice xs writer.held.2 (pieceOf segments writer.held.1 k)).now =
      dataOf segments (writer.held.1 + k) := by
    show splice file.now writer.held.2 _ = _
    rw [hnow, hheld.bytes, splice_length, hadd]
  refine ⟨⟨⟨hk, ?_⟩, _, rfl, ?_, hsaver.mono (Nat.le_add_right _ _)⟩, ?_⟩
  · show writer.held.2 + _ = (dataOf segments (writer.held.1 + k)).length
    rw [hadd, List.length_append, hheld.bytes]
  · exact hall ▸ List.prefix_rfl
  · intro file' hfile'
    cases hfile'
    exact hall

theorem Sound.torn {segments : List (List UInt8)} {s : Track φ} (h : s.Sound segments) {writer : Writer φ}
    (hrun : s.run = .writing writer) (data : List UInt8) :
    Sound segments (s.put writer data (.joining writer true)) := by
  have hheld : Right segments writer.held := by
    have hsound : Run.Sound segments s.part s.state (.writing writer) := hrun ▸ h.run
    exact hsound.1.held
  refine h.put hrun data fun file hfile hnow hsaver => ⟨⟨hheld, _, rfl, ?_, hsaver⟩, fun hfailed => by cases hfailed⟩
  show dataOf segments writer.held.1 <+: splice file.now writer.held.2 data
  rw [hnow, hheld.bytes, splice_length]
  exact List.prefix_append _ _

/-! ## The saver -/

theorem early_of_writer {run : Run φ} {writer : Writer φ} (h : run.writer? = some writer) (saver : Saver) :
    run.early = false ∧ (run.setSaver saver).early = false := by
  cases run <;> simp [Run.writer?, Run.early, Run.setSaver] at h ⊢

/-- A step of the saver leaves what the part holds now. -/
theorem sound_setSaver {segments : List (List UInt8)} {part : Option (DiskFile UInt8)}
    {state state' : Option (ResumeState φ)} {run : Run φ} {writer : Writer φ} (h : run.Sound segments part state)
    (hwriter : run.writer? = some writer) {saver : Saver} {change : DiskFile UInt8 → DiskFile UInt8}
    (hnow : ∀ file, (change file).now = file.now)
    (hsaver : ∀ file, part = some file → dataOf segments writer.held.1 <+: file.now →
      writer.saver.Sound segments file writer.held.1 → saver.Sound segments (change file) writer.held.1) :
    (run.setSaver saver).Sound segments (part.map change) state' := by
  have hkeep : writer.Sound segments part → Writer.Sound segments (part.map change) { writer with saver } := by
    rintro ⟨hheld, file, hfile, hstarts, hold⟩
    exact ⟨hheld, change file, by rw [hfile]; rfl, (hnow file).symm ▸ hstarts, hsaver file hfile hstarts hold⟩
  have hexact : Exact segments part writer.held.1 → Exact segments (part.map change) writer.held.1 := by
    intro hexact file' hfile'
    obtain ⟨file, hfile, rfl⟩ := Option.map_eq_some_iff.mp hfile'
    rw [hnow]
    exact hexact file hfile
  cases run <;> simp only [Run.writer?, Option.some.injEq, reduceCtorEq] at hwriter <;> subst hwriter
  case writing => exact ⟨hkeep h.1, hexact h.2⟩
  case joining failed => exact ⟨hkeep h.1, fun hok => hexact (h.2 hok)⟩
  case saving => exact hkeep h

/-- The saver of a run that has one. -/
theorem saver_sound {segments : List (List UInt8)} {part : Option (DiskFile UInt8)}
    {state : Option (ResumeState φ)} {run : Run φ} {writer : Writer φ} (h : run.Sound segments part state)
    (hwriter : run.writer? = some writer) : writer.Sound segments part := by
  cases run <;> simp only [Run.writer?, Option.some.injEq, reduceCtorEq] at hwriter <;> subst hwriter
  case writing => exact h.1
  case joining => exact h.1
  case saving => exact h

theorem Sound.flush {segments : List (List UInt8)} {s : Track φ} (h : s.Sound segments) {writer : Writer φ}
    (hwriter : s.run.writer? = some writer) {held : Held} (hsaver : writer.saver = .flushing held) :
    Sound segments { s with
      part := if held.2 > 0 then s.part.map DiskFile.sync else s.part
      run := s.run.setSaver (.replacing held) } := by
  obtain ⟨hlate, hlate'⟩ := early_of_writer hwriter (.replacing held)
  have hpart : (if held.2 > 0 then s.part.map DiskFile.sync else s.part) =
      s.part.map fun file => if held.2 > 0 then file.sync else file := by
    split
    · rfl
    · rw [Option.map_id']
  refine ⟨fun st hst => ⟨(h.state st hst).1, fun file' hfile' => .inl ?_⟩, ?_, h.finished⟩
  · dsimp only at hfile'
    rw [hpart] at hfile'
    obtain ⟨file, hfile, rfl⟩ := Option.map_eq_some_iff.mp hfile'
    have hfirm := h.firm hlate hst hfile
    split
    · exact firm_sync (hfirm _ file.now_mem_versions)
    · exact hfirm
  · dsimp only
    rw [hpart]
    refine sound_setSaver h.run hwriter (fun file => by split <;> rfl) fun file _ hstarts hold => ?_
    rw [hsaver] at hold
    obtain ⟨hright, hle⟩ := hold
    refine ⟨hright, hle, ?_⟩
    split
    · exact firm_sync ((dataOf_starts segments hle).trans hstarts)
    · rename_i hnone
      -- nothing to sync: these segments hold no bytes
      have hnil : dataOf segments held.1 = [] := List.length_eq_zero_iff.mp (by have := hright.bytes; omega)
      rw [hnil]
      exact firm_nil file

theorem Sound.replace {segments : List (List UInt8)} {s : Track φ} (h : s.Sound segments) {writer : Writer φ}
    (hwriter : s.run.writer? = some writer) {held : Held} (hsaver : writer.saver = .replacing held) :
    Sound segments { s with
      state := some ⟨writer.fingerprints, held.1, held.2⟩
      run := s.run.setSaver .idle } := by
  obtain ⟨_, file, hfile, _, hold⟩ := saver_sound h.run hwriter
  rw [hsaver] at hold
  refine ⟨fun st hst => ?_, ?_, h.finished⟩
  · cases hst
    refine ⟨hold.1, fun file' hfile' => .inl ?_⟩
    rw [hfile] at hfile'
    cases hfile'
    exact hold.2.2
  · have hrun : (s.run.setSaver .idle).Sound segments (s.part.map id)
        (some ⟨writer.fingerprints, held.1, held.2⟩) :=
      sound_setSaver h.run hwriter (fun _ => rfl) fun _ _ _ _ => trivial
    rwa [Option.map_id] at hrun

/-! ## Every step keeps it -/

/-- A run that is over, and any later stage that writes nothing. -/
theorem Sound.move {segments : List (List UInt8)} {s : Track φ} (h : s.Sound segments) {run : Run φ}
    (hrun : run.Sound segments s.part s.state) (hearly : s.run.early = true → run.early = true) :
    Sound segments { s with run } := by
  refine ⟨fun st hst => ⟨(h.state st hst).1, fun file hfile => ?_⟩, hrun, h.finished⟩
  exact ((h.state st hst).2 file hfile).imp_right fun hblank => ⟨hearly hblank.1, hblank.2⟩

theorem Sound.over {segments : List (List UInt8)} {s : Track φ} (h : s.Sound segments) :
    Sound segments { s with run := .idle } := h.move trivial fun _ => rfl

theorem Sound.crash {segments : List (List UInt8)} {s : Track φ} (h : s.Sound segments) {file : DiskFile UInt8}
    (hfile : s.part = some file) {content : List UInt8} (hcrash : file.Survives content) :
    Sound segments { s with part := some (DiskFile.crashed content), run := .idle } := by
  refine ⟨fun st hst => ⟨(h.state st hst).1, fun file' hfile' => ?_⟩, trivial, h.finished⟩
  cases hfile'
  exact ((h.state st hst).2 file hfile).imp (fun hfirm => hfirm.crashed hcrash)
    fun hblank => ⟨rfl, hblank.2.crashed hcrash⟩

theorem Sound.fsync {segments : List (List UInt8)} {s : Track φ} (h : s.Sound segments) {writer : Writer φ}
    (hrun : s.run = .finishing writer) : Sound segments { s with part := s.part.map DiskFile.sync } := by
  obtain ⟨⟨hheld, file, hfile, hstarts, hsaver⟩, hexact⟩ : Run.Sound segments s.part s.state (.finishing writer) :=
    hrun ▸ h.run
  have hlate : s.run.early = false := by rw [hrun]; rfl
  simp only [hfile, Option.map_some]
  refine ⟨fun st hst => ⟨(h.state st hst).1, fun file' hfile' => .inl ?_⟩, ?_, h.finished⟩
  · cases hfile'
    exact firm_sync (h.firm hlate hst hfile _ file.now_mem_versions)
  · rw [hrun]
    refine ⟨⟨hheld, file.sync, rfl, hstarts, hsaver.sync hstarts⟩, fun file' hfile' => ?_⟩
    cases hfile'
    exact hexact file hfile

theorem Sound.step [DecidableEq φ] {segments : List (List UInt8)} {stream : φ} {s s' : Track φ} {e : Event φ}
    (h : s.Sound segments) (hstep : s.step segments stream e = some s') : s'.Sound segments := by
  have hsound := h.run
  cases e <;> simp only [Track.step] at hstep
  case prepare exact matched =>
    split at hstep
    · obtain ⟨held, hheld, rfl⟩ := Option.map_eq_some_iff.mp hstep
      exact h.move (resumes_prepare h.state hheld) fun _ => rfl
    · cases hstep
  case open_ =>
    split at hstep
    · rename_i fingerprints held hrun
      cases hstep
      rw [hrun] at hsound
      have hstate := h.state
      rw [hrun] at hstate
      exact ⟨StateSound.opened hstate, ⟨Resumes.opened hsound, _, rfl⟩, h.finished⟩
    · cases hstep
  case setLen =>
    split at hstep
    · rename_i fingerprints held hrun
      cases hstep
      exact h.sized hrun
    · cases hstep
  case saveNew =>
    split at hstep
    · rename_i fingerprints held hrun
      cases hstep
      exact h.named hrun
    · cases hstep
  case hash through =>
    split at hstep
    · rename_i fingerprints held hrun
      cases hstep
      rw [hrun] at hsound
      obtain ⟨hright, file, hfile, hnow⟩ := hsound
      refine h.move ⟨⟨hright, file, hfile, hnow ▸ List.prefix_rfl, trivial⟩, fun file' hfile' => ?_⟩ fun he => ?_
      · rw [hfile] at hfile'
        cases hfile'
        exact hnow
      · rw [hrun] at he
        cases he
    · cases hstep
  case piece k =>
    split at hstep
    · rename_i writer hrun
      split at hstep
      · rename_i hk
        cases hstep
        exact h.piece hrun hk.2
      · cases hstep
    · cases hstep
  case torn k n =>
    split at hstep
    · rename_i writer hrun
      split at hstep
      · cases hstep
        exact h.torn hrun _
      · cases hstep
    · cases hstep
  case handOver =>
    split at hstep
    · rename_i writer hrun
      have hlate : s.run.early ≠ true := by rw [hrun]; exact Bool.false_ne_true
      rw [hrun] at hsound
      obtain ⟨⟨hheld, file, hfile, hstarts, hsaver⟩, hexact⟩ := hsound
      split at hstep
      · split at hstep
        · cases hstep
          exact h.move ⟨⟨hheld, file, hfile, hstarts, hheld, le_rfl⟩, hexact⟩ fun he => absurd he hlate
        · cases hstep
          exact h.move ⟨⟨hheld, file, hfile, hstarts, hsaver⟩, fun _ => hexact⟩ fun he => absurd he hlate
        · cases hstep
          exact h.move ⟨⟨hheld, file, hfile, hstarts, hsaver⟩, hexact⟩ fun he => absurd he hlate
      · cases hstep
    · cases hstep
  case flush =>
    split at hstep
    · rename_i writer hwriter
      split at hstep
      · rename_i held hsaver
        cases hstep
        exact h.flush hwriter hsaver
      · cases hstep
    · cases hstep
  case replace =>
    split at hstep
    · rename_i writer hwriter
      split at hstep
      · rename_i held hsaver
        cases hstep
        exact h.replace hwriter hsaver
      · cases hstep
    · cases hstep
  case saverFails =>
    obtain ⟨writer, hwriter, rfl⟩ := Option.map_eq_some_iff.mp hstep
    have hfailed : (s.run.setSaver .failed).Sound segments (s.part.map id) s.state :=
      sound_setSaver hsound hwriter (fun _ => rfl) fun _ _ _ _ => trivial
    rw [Option.map_id] at hfailed
    exact h.move hfailed fun he => by rw [(early_of_writer hwriter .failed).1] at he; cases he
  case leave =>
    split at hstep
    · rename_i writer hrun
      cases hstep
      rw [hrun] at hsound
      exact h.move ⟨hsound.1, fun _ => hsound.2⟩ fun he => by rw [hrun] at he; cases he
    · cases hstep
  case join =>
    split at hstep
    · rename_i writer failed hrun
      rw [hrun] at hsound
      split at hstep
      · cases hstep
        cases failed with
        | true => exact h.over
        | false => exact h.move ⟨hsound.1, hsound.2 rfl⟩ fun he => by rw [hrun] at he; cases he
      · cases hstep
        exact h.over
      · cases hstep
    · cases hstep
  case fsync =>
    split at hstep
    · rename_i writer hrun
      split at hstep
      · cases hstep
        exact h.fsync hrun
      · cases hstep
    · cases hstep
  case rename =>
    split at hstep
    · rename_i writer file hrun hfile
      split at hstep
      · rename_i hall
        cases hstep
        rw [hrun] at hsound
        refine ⟨fun st hst => ⟨(h.state st hst).1, fun _ hfile' => by cases hfile'⟩, rfl, fun c hc => ?_⟩
        rcases List.mem_cons.mp hc with rfl | hc
        · rw [hsound.2 file hfile, hall.2, dataOf, List.take_length]
        · exact h.finished c hc
      · cases hstep
    · cases hstep
  case remove removed =>
    split at hstep
    · rename_i hrun
      cases hstep
      rw [hrun] at hsound
      refine ⟨fun st hst => ?_, trivial, h.finished⟩
      have hsame : s.state = some st := by
        cases removed with
        | true => cases hst
        | false => exact hst
      exact ⟨(h.state st hsame).1, fun file hfile => by rw [show s.part = none from hsound] at hfile; cases hfile⟩
    · cases hstep
  case lastSave =>
    split at hstep
    · rename_i writer hrun
      cases hstep
      rw [hrun] at hsound
      obtain ⟨⟨hheld, file, hfile, hstarts, _⟩, _⟩ := hsound
      split
      · exact h.move ⟨hheld, file, hfile, hstarts, hheld, le_rfl⟩ fun he => by rw [hrun] at he; cases he
      · exact h.over
    · cases hstep
  case ends =>
    cases hstep
    exact h.over
  case crash content =>
    split at hstep
    · cases hstep
      exact h.over
    · rename_i file hfile
      split at hstep
      · rename_i hcrash
        cases hstep
        exact h.crash hfile hcrash
      · cases hstep

theorem sound_start {segments : List (List UInt8)} {s : Track φ} (h : s.starts) : s.Sound segments := by
  obtain ⟨hpart, hstate, hfinished, hrun⟩ := h
  refine ⟨fun st hst => ?_, ?_, ?_⟩
  · rw [hstate] at hst
    cases hst
  · rw [hrun]
    trivial
  · simp [hfinished]

theorem sound_invariant [DecidableEq φ] (segments : List (List UInt8)) (stream : φ) :
    (tracks segments stream).toTSys.Invariant (Sound segments) :=
  TSys.Inductive.invariant
    { init := fun _ h => sound_start h
      step := fun _ _ h ⟨_, hstep⟩ => h.step hstep }

end Track

/-- Whatever happened before, the bytes `prepare` goes on from are in the part
and are the data of so many segments, in every content a crash may leave it
with; and what has the final name is the data of all segments. -/
theorem resumes_what_is_there [DecidableEq φ] (segments : List (List UInt8)) (stream : φ) :
    (tracks segments stream).toTSys.Invariant fun s =>
      (∀ exact matched held file, s.prepare segments.length ⟨exact, stream⟩ matched = some held →
        s.part = some file → ∀ content, file.Survives content →
          held.2 ≤ content.length ∧ content.take held.2 = (segments.take held.1).flatten) ∧
      ∀ c ∈ s.finished, c = segments.flatten := by
  intro s hreach
  have h := Track.sound_invariant segments stream s hreach
  refine ⟨fun exact_ matched held file hheld hfile content hcrash => ?_, h.finished⟩
  obtain ⟨hright, hfrom⟩ := resumes_prepare h.state hheld
  have hbytes : held.2 = (dataOf segments held.1).length := hright.bytes
  have hstarts : dataOf segments held.1 <+: content := by
    rcases hfrom with ⟨hzero, _⟩ | ⟨_, file', hfile', hfirm⟩
    · rw [hzero, dataOf_zero]
      exact List.nil_prefix
    · rw [hfile] at hfile'
      cases hfile'
      exact hcrash.starts hfirm
  rw [hbytes]
  exact ⟨hstarts.length_le, (List.prefix_iff_eq_take.mp hstarts).symm⟩

/-- The first of two segments is saved, the second one cut off: the next run
goes on after the first. -/
theorem resumes_what_is_there_two : ∃ s file, (tracks [[1, 2], [3, 4]] ()).run ⟨none, none, [], .idle⟩ [
      .prepare () true, .open_, .setLen, .saveNew, .hash true, .piece 1, .handOver, .flush, .replace, .torn 1 1,
      .ends] = some s ∧
    s.prepare 2 ⟨(), ()⟩ true = some (1, 2) ∧ s.part = some file ∧
    ∀ content, file.Survives content → content.take 2 = [1, 2] := by
  have hrun : ∃ s file, (tracks [[1, 2], [3, 4]] ()).run ⟨none, none, [], .idle⟩ [
      .prepare () true, .open_, .setLen, .saveNew, .hash true, .piece 1, .handOver, .flush, .replace, .torn 1 1,
      .ends] = some s ∧ s.prepare 2 ⟨(), ()⟩ true = some (1, 2) ∧ s.part = some file := ⟨_, _, rfl, rfl, rfl⟩
  obtain ⟨s, file, hs, hheld, hfile⟩ := hrun
  have hreach : (tracks [[1, 2], [3, 4]] ()).toTSys.Reachable s :=
    Machine.reachable_run (.init ⟨rfl, rfl, rfl, rfl⟩) hs
  exact ⟨s, file, hs, hheld, hfile, fun content hcrash =>
    ((resumes_what_is_there [[1, 2], [3, 4]] () s hreach).1 () true (1, 2) file hheld hfile content hcrash).2⟩

end Hyperfetch.Hls
