import Hyperfetch.Chunk.Operations
import Hyperfetch.Chunk.Resume
import Hyperfetch.Weft.TSys

/-!
# Runs of the manager

The manager's operations in any order, with stores to its cells in between.
An operation runs under the manager's lock, but a worker's stores need no
lock: they also come between the two looks of a takeover or a steal, so those
are two events each. A store may put any offset anywhere, which is more than
the workers do.

A run is orderly if no chunk that waits to be retried is marked completed or
failed. The books balance after every orderly run.
-/

namespace Hyperfetch

open Weft

namespace ChunkManager

/-- What the first look of an operation has picked. -/
inductive Picked
  | silent (id thiefWorkerId thiefMirrorId now : Nat)
  | victim (id thiefWorkerId thiefMirrorId minBytes : Nat) (share : Share) (now : Nat)

/-- The manager, and what the operation that holds its lock has picked. -/
structure Session where
  manager : ChunkManager
  picked : Option Picked

inductive Event
  | getNextWork (workerId mirrorId now : Nat)
  | assignAt (workerId mirrorId start end_ now : Nat)
  | pickSilent (thiefWorkerId thiefMirrorId : Nat) (minSilence : Nat → Nat) (now : Nat)
  | pickVictim (victim thiefWorkerId thiefMirrorId minBytes : Nat) (share : Share) (now : Nat)
  /-- The rest of `take_over_silent` or `steal_work`. -/
  | takePicked
  | markCompleted (chunkId : Nat)
  | markFailed (chunkId : Nat) (reason : String) (minDelay : Nat) (counts : Bool) (now : Nat)
      (backoffDelay : Nat → Nat)
  | abort (chunkId : Nat) (reason : String)
  | store (lease pos : Nat)
  | tell (attempt : Nat) (a : Attempt)

/-- An operation that needs the lock. -/
def Session.locked (s : Session) (op : ChunkManager → Session) : Option Session :=
  if s.picked.isSome then none else some (op s.manager)

/-- The manager after a call that may find no such chunk. -/
def orSame (m : ChunkManager) : Except ChunkError ChunkManager → ChunkManager
  | .ok m' => m'
  | .error _ => m

def Session.step (s : Session) : Event → Option Session
  | .getNextWork workerId mirrorId now => s.locked fun m => ⟨(m.getNextWork workerId mirrorId now).2, none⟩
  | .assignAt workerId mirrorId start end_ now =>
    s.locked fun m => ⟨(m.assignAt workerId mirrorId start end_ now).2, none⟩
  | .pickSilent thiefWorkerId thiefMirrorId minSilence now => s.locked fun m =>
    if m.fatal.isSome then ⟨m, none⟩
    else ⟨m, (m.silentChunk minSilence now).map (.silent · thiefWorkerId thiefMirrorId now)⟩
  | .pickVictim victim thiefWorkerId thiefMirrorId minBytes share now => s.locked fun m =>
    if m.fatal.isNone ∧ victim ∈ m.stealVictims (max minBytes 1) then
      ⟨m, some (.victim victim thiefWorkerId thiefMirrorId (max minBytes 1) share now)⟩
    else ⟨m, none⟩
  | .takePicked => s.picked.map fun
    | .silent id thiefWorkerId thiefMirrorId now =>
      ⟨(s.manager.takeOver id thiefWorkerId thiefMirrorId now).2, none⟩
    | .victim id thiefWorkerId thiefMirrorId minBytes share now =>
      ⟨(s.manager.stealFrom id thiefWorkerId thiefMirrorId minBytes share now).2, none⟩
  | .markCompleted chunkId => s.locked fun m => ⟨m.orSame (m.markCompleted chunkId), none⟩
  | .markFailed chunkId reason minDelay counts now backoffDelay =>
    s.locked fun m => ⟨m.orSame (m.markFailed chunkId reason minDelay counts now backoffDelay), none⟩
  | .abort chunkId reason => s.locked fun m => ⟨m.abort chunkId reason, none⟩
  | .store lease pos => some { s with manager.cells := s.manager.cells.store lease pos }
  | .tell attempt a => some { s with manager.cells := s.manager.cells.tell attempt a }

/-- The chunk an event settles. -/
def Event.settles : Event → Option Nat
  | .markCompleted chunkId => some chunkId
  | .markFailed chunkId .. => some chunkId
  | _ => none

/-- No chunk that waits to be retried is settled. -/
def Session.orderly (s : Session) (e : Event) : Bool :=
  (e.settles.bind (s.manager.chunks[·]?)).all fun c => !c.isFailed

/-- Where the manager of a file of `total` bytes starts. -/
def Session.start (total baseChunkSize maxRetries : Nat) (resumed : List ByteRange) : Session :=
  ⟨(withResumedRanges total baseChunkSize resumed).setMaxRetries maxRetries, none⟩

/-- Every start over valid ranges. -/
def Session.starts (total : Nat) (s : Session) : Prop :=
  total ≤ u64Max ∧ ∃ baseChunkSize maxRetries resumed,
    (∀ r ∈ resumed, ByteRange.Valid r) ∧ s = .start total baseChunkSize maxRetries resumed

/-- The operations in any order. -/
def sessions (total : Nat) : Machine Session Event where
  init := Session.starts total
  step := Session.step

/-- The operations in any orderly order. -/
def orderlySessions (total : Nat) : Machine Session Event where
  init := Session.starts total
  step s e := if s.orderly e then s.step e else none

/-! ## The invariant -/

/-- The chunk picked is in flight. -/
def Picked.Flying (m : ChunkManager) : Picked → Prop
  | .silent id .. => ∃ c, m.chunks[id]? = some c ∧ c.isInFlight = true
  | .victim id _ _ minBytes .. => 0 < minBytes ∧ ∃ c, m.chunks[id]? = some c ∧ c.isInFlight = true

structure Session.Sound (total : Nat) (s : Session) : Prop where
  books : s.manager.Books total
  picked : ∀ p ∈ s.picked, p.Flying s.manager

theorem Session.Sound.idle {total : Nat} {m : ChunkManager} (h : m.Books total) :
    Session.Sound total ⟨m, none⟩ := ⟨h, by simp⟩

theorem keepMax_eq {α : Type*} (key : α → Nat) (best : Option α) (x : α) :
    keepMax key best x = some x ∨ keepMax key best x = best := by
  cases best with
  | none => exact .inl rfl
  | some b =>
    simp only [keepMax]
    split
    · exact .inl rfl
    · exact .inr rfl

theorem foldl_keepMax_mem {α : Type*} {key : α → Nat} {xs : List α} {best : Option α} {x : α}
    (h : xs.foldl (keepMax key) best = some x) : x ∈ xs ∨ best = some x := by
  induction xs generalizing best with
  | nil => exact .inr h
  | cons y ys ih =>
    rcases ih h with hmem | hbest
    · exact .inl (List.mem_cons_of_mem _ hmem)
    · rcases keepMax_eq key best y with hy | hkeep
      · rw [hy] at hbest
        exact .inl (Option.some.inj hbest ▸ List.mem_cons_self)
      · exact .inr (hkeep ▸ hbest)

theorem maxByKey_mem {α : Type*} {key : α → Nat} {xs : List α} {x : α} (h : maxByKey key xs = some x) :
    x ∈ xs :=
  (foldl_keepMax_mem h).resolve_right (by simp)

/-- The first look of a takeover picks a chunk in flight. -/
theorem silentChunk_flying {m : ChunkManager} {total : Nat} (h : m.Books total) {minSilence : Nat → Nat}
    {now id : Nat} (hid : m.silentChunk minSilence now = some id) :
    ∃ c, m.chunks[id]? = some c ∧ c.isInFlight = true := by
  obtain ⟨⟨i, silent⟩, hmax, rfl⟩ := Option.map_eq_some_iff.mp hid
  obtain ⟨c, hc, hsome⟩ := List.mem_filterMap.mp (maxByKey_mem hmax)
  obtain ⟨k, hk⟩ := List.mem_iff_getElem?.mp hc
  have hkid := (h.entry k c hk).id
  split at hsome
  · rename_i hst
    split at hsome
    · dsimp only at hsome
      split at hsome
      · cases hsome
        exact ⟨c, hkid ▸ hk, by simp [Chunk.isInFlight, hst]⟩
      · cases hsome
    · cases hsome
  · cases hsome

/-- So does the first look of a steal. -/
theorem stealVictims_flying {m : ChunkManager} {total : Nat} (h : m.Books total) {minBytes id : Nat}
    (hid : id ∈ m.stealVictims minBytes) : ∃ c, m.chunks[id]? = some c ∧ c.isInFlight = true := by
  obtain ⟨c, hc, rfl⟩ := List.mem_map.mp hid
  obtain ⟨hmem, hcond⟩ := List.mem_filter.mp hc
  obtain ⟨k, hk⟩ := List.mem_iff_getElem?.mp hmem
  have hkid := (h.entry k c hk).id
  exact ⟨c, hkid ▸ hk, (Bool.and_eq_true _ _ ▸ hcond).1⟩

theorem locked_some {s s' : Session} {op : ChunkManager → Session} (h : s.locked op = some s') :
    s' = op s.manager := by
  unfold Session.locked at h
  split at h
  · cases h
  · exact (Option.some.inj h).symm

theorem orderly_settles {s : Session} {e : Event} {id : Nat} (he : e.settles = some id)
    (ho : s.orderly e = true) : ∀ c, s.manager.chunks[id]? = some c → c.isFailed = false := by
  intro c hc
  simpa [Session.orderly, he, hc] using ho

theorem Books.orSame {m : ChunkManager} {total : Nat} (h : m.Books total) {r : Except ChunkError ChunkManager}
    (hr : ∀ m', r = .ok m' → m'.Books total) : (m.orSame r).Books total := by
  cases r with
  | ok m' => exact hr m' rfl
  | error _ => exact h

/-- Every orderly event keeps the books. -/
theorem Session.Sound.step {total : Nat} {s s' : Session} {e : Event} (h : s.Sound total)
    (ho : s.orderly e = true) (hstep : s.step e = some s') : s'.Sound total := by
  cases e <;> simp only [Session.step] at hstep
  case getNextWork workerId mirrorId now =>
    rw [locked_some hstep]
    exact .idle (h.books.getNextWork workerId mirrorId now)
  case assignAt workerId mirrorId start end_ now =>
    rw [locked_some hstep]
    exact .idle (h.books.assignAt workerId mirrorId start end_ now)
  case pickSilent thiefWorkerId thiefMirrorId minSilence now =>
    rw [locked_some hstep]
    split
    · exact .idle h.books
    · refine ⟨h.books, fun p hp => ?_⟩
      obtain ⟨id, hid, rfl⟩ := Option.map_eq_some_iff.mp hp
      exact silentChunk_flying h.books hid
  case pickVictim victim thiefWorkerId thiefMirrorId minBytes share now =>
    rw [locked_some hstep]
    split
    · rename_i hpick
      refine ⟨h.books, fun p hp => ?_⟩
      cases hp
      exact ⟨by omega, stealVictims_flying h.books hpick.2⟩
    · exact .idle h.books
  case takePicked =>
    obtain ⟨p, hp, rfl⟩ := Option.map_eq_some_iff.mp hstep
    have hfly := h.picked p hp
    cases p with
    | silent id thiefWorkerId thiefMirrorId now =>
      obtain ⟨c, hc, hin⟩ := hfly
      exact .idle (h.books.takeOver hc hin thiefWorkerId thiefMirrorId now)
    | victim id thiefWorkerId thiefMirrorId minBytes share now =>
      obtain ⟨hmin, c, hc, hin⟩ := hfly
      exact .idle (h.books.stealFrom hc (inFlight_open hin).1 hmin thiefWorkerId thiefMirrorId share now)
  case markCompleted chunkId =>
    rw [locked_some hstep]
    exact .idle (h.books.orSame fun m' hok => h.books.markCompleted (orderly_settles rfl ho) hok)
  case markFailed chunkId reason minDelay counts now backoffDelay =>
    rw [locked_some hstep]
    exact .idle (h.books.orSame fun m' hok => h.books.markFailed (orderly_settles rfl ho) hok)
  case abort chunkId reason =>
    rw [locked_some hstep]
    exact .idle (h.books.abort chunkId reason)
  case store lease pos =>
    cases hstep
    exact ⟨h.books.withCells (fun _ _ => store_endOffset _ _ _ _) le_rfl, h.picked⟩
  case tell attempt a =>
    cases hstep
    exact ⟨h.books.withCells (fun _ _ => rfl) le_rfl, h.picked⟩

theorem Session.sound_start {total : Nat} {resumed : List ByteRange} (hsize : total ≤ u64Max)
    (hvalid : ∀ r ∈ resumed, r.Valid) (baseChunkSize maxRetries : Nat) :
    (Session.start total baseChunkSize maxRetries resumed).Sound total :=
  have h := books_withResumedRanges baseChunkSize hsize hvalid
  .idle { h with entry := fun i c hc => { h.entry i c hc with } }

theorem Session.sound_inductive (total : Nat) :
    (orderlySessions total).toTSys.Inductive (Session.Sound total) where
  init := by
    rintro s ⟨hsize, base, maxRetries, resumed, hvalid, rfl⟩
    exact Session.sound_start hsize hvalid base maxRetries
  step := by
    rintro s s' h ⟨e, hstep⟩
    simp only [orderlySessions] at hstep
    split at hstep
    · rename_i ho
      exact h.step ho hstep
    · cases hstep

/-- In every state an orderly run reaches, the chunks' ids are their indices,
their ranges sorted by start partition `[0, total)`, the counter counts the
completed chunks, each other chunk's shared end is its range's, no chunk below
the cursor is unassigned, and the retry queue holds the failed chunks once
each. -/
theorem orderly_tiling (total : Nat) :
    (orderlySessions total).toTSys.Invariant fun s =>
      let m := s.manager
      (∀ (i : Nat) (c : Chunk), m.chunks[i]? = some c → c.id = i) ∧
      Chain (·.range.start) (·.range.end_) 0 total
        (m.chunks.mergeSort fun c d => decide (c.range.start ≤ d.range.start)) ∧
      m.completed = m.chunks.countP Chunk.isCompleted ∧
      (∀ c ∈ m.chunks, c.isCompleted = false → (m.cells.leases c.lease).endOffset = c.range.end_) ∧
      (∀ (i : Nat) (c : Chunk), m.chunks[i]? = some c → i < m.nextFresh → c.status ≠ .unassigned) ∧
      m.retryQueue.Nodup ∧
      ∀ i, i ∈ m.retryQueue ↔ ∃ c, m.chunks[i]? = some c ∧ c.isFailed = true := by
  intro s hreach
  have h := ((Session.sound_inductive total).invariant s hreach).books
  refine ⟨fun i c hc => (h.entry i c hc).id, h.tiling.chain (Nat.zero_le _), h.completed, ?_,
    fun i c hc => (h.entry i c hc).fresh, h.nodup, fun i => ⟨fun hi => ?_, ?_⟩⟩
  · intro c hc
    obtain ⟨i, hi⟩ := List.mem_iff_getElem?.mp hc
    exact (h.entry i c hi).end_
  · have hc := List.getElem?_eq_getElem (h.queue i hi)
    exact ⟨_, hc, (h.entry i _ hc).queued.mp hi⟩
  · rintro ⟨c, hc, hf⟩
    exact (h.entry i c hc).queued.mpr hf

/-- A file of four bytes starts as one chunk. -/
theorem start_four : Session.start 4 0 8 [] = ⟨{
    totalSize := 4
    baseChunkSize := 64 * 1024
    chunks := [Chunk.new 0 ⟨0, 3⟩ 0]
    completed := 0
    nextFresh := 0
    retryQueue := []
    maxRetries := 8
    fatal := none
    cells := numberedCells [(⟨0, 3⟩, .unassigned)] }, none⟩ := by
  have hmerged : mergedCompleted 4 [] = [] := by simp [mergedCompleted, mergeRanges]
  have hgaps : computeGaps 4 [] = [⟨0, 3⟩] := by
    simp [computeGaps, mergeRanges, gapsFrom, lastGap, ByteRange.new, Except.toOption]
  have hranges : resumedRanges 4 (64 * 1024) [] = [(⟨0, 3⟩, .unassigned)] := by
    simp [resumedRanges, hgaps, cutGap, ByteRange.fromLen, u64Max]
  simp only [Session.start, withResumedRanges, setMaxRetries, hmerged, Nat.zero_max, hranges]
  rfl

theorem starts_four : Session.starts 4 (Session.start 4 0 8 []) :=
  ⟨by decide, 0, 8, [], by simp, rfl⟩

/-- A steal from a worker that wrote a byte, and a retry: four bytes in three chunks. -/
theorem orderly_tiling_four : ∃ s, (orderlySessions 4).run (Session.start 4 0 8 []) [
      .getNextWork 0 0 0, .store 0 1, .pickVictim 0 1 0 1 .half 0, .takePicked,
      .markFailed 0 "reset" 0 true 0 (fun _ => 0)] = some s ∧ s.manager.chunks.length = 3 ∧
    Chain (·.range.start) (·.range.end_) 0 4
      (s.manager.chunks.mergeSort fun c d => decide (c.range.start ≤ d.range.start)) := by
  have hrun : ∃ s, (orderlySessions 4).run (Session.start 4 0 8 []) [
      .getNextWork 0 0 0, .store 0 1, .pickVictim 0 1 0 1 .half 0, .takePicked,
      .markFailed 0 "reset" 0 true 0 (fun _ => 0)] = some s ∧ s.manager.chunks.length = 3 := by
    rw [start_four]
    exact ⟨_, rfl, rfl⟩
  obtain ⟨s, hs, hlen⟩ := hrun
  exact ⟨s, hs, hlen, (orderly_tiling 4 s (Machine.reachable_run (.init starts_four) hs)).2.1⟩

/-- Without that order the queue can hold an id twice: a chunk is marked
failed while it waits to be retried. -/
theorem settled_twice_queued_twice :
    ¬ ∀ total, (sessions total).toTSys.Invariant fun s => s.manager.retryQueue.Nodup := by
  have hrun : ∃ s, (sessions 4).run (Session.start 4 0 8 []) [
      .getNextWork 0 0 0, .markFailed 0 "reset" 0 true 0 (fun _ => 0),
      .markFailed 0 "reset" 0 true 0 (fun _ => 0)] = some s ∧ s.manager.retryQueue = [0, 0] := by
    rw [start_four]
    exact ⟨_, rfl, rfl⟩
  obtain ⟨s, hs, hqueue⟩ := hrun
  intro hall
  have hnodup : s.manager.retryQueue.Nodup := hall 4 s (Machine.reachable_run (.init starts_four) hs)
  rw [hqueue] at hnodup
  exact absurd hnodup (by decide)

end ChunkManager

end Hyperfetch
