import Hyperfetch.Worker.Download
import Mathlib.Data.Set.Card

/-!
# Mirrors and what an FTP attempt costs them (`mirror.rs`, `ftp.rs`)

The racer's mirrors with the connections each has open, and `settle`, which
takes an attempt's connection off again and books its outcome. Left out: the
speeds and answer times, which only rank the mirrors, and the events and hosts'
slots, which no chunk's books read.
-/

namespace Hyperfetch

/-- A mirror, as far as its connections and failures go. -/
structure Mirror where
  inFlight : Nat
  failures : Nat
  consecutiveSuccesses : Nat
  badResponses : Nat
  isActive : Bool
  cooldownUntil : Option Nat
  /-- Concurrent connections the server tolerates. -/
  maxConnections : Nat
  deriving DecidableEq, Repr

/-- `MAX_BAD_RESPONSES`. -/
def maxBadResponses : Nat := 2

namespace Mirror

def new : Mirror := ⟨0, 0, 0, 0, true, none, u64Max⟩

/-- Its score is not negative: it takes another connection. -/
def usable (m : Mirror) (now : Nat) : Bool :=
  m.isActive && decide (m.inFlight < m.maxConnections) && m.cooldownUntil.all (· ≤ now)

def recordSuccess (m : Mirror) : Mirror :=
  let successes := m.consecutiveSuccesses + 1
  { m with
    consecutiveSuccesses := successes
    failures := if successes > 3 then m.failures - 1 else m.failures
    badResponses := 0
    maxConnections := saturatingAdd m.maxConnections 1 }

def recordFailure (m : Mirror) : Mirror := { m with failures := m.failures + 1, consecutiveSuccesses := 0 }

/-- An answer that shows the mirror of no use; the second in a row ends it. -/
def recordBadResponse (m : Mirror) : Mirror :=
  let bad := m.badResponses + 1
  { m.recordFailure with badResponses := bad, isActive := m.isActive && decide (bad < maxBadResponses) }

/-- The server rejected a connection while `others` of ours were being served. -/
def recordThrottled (m : Mirror) (others : Nat) : Mirror :=
  { m.recordFailure with maxConnections := min m.maxConnections (max others 1) }

def coolDown (m : Mirror) (until_ : Nat) : Mirror :=
  { m with cooldownUntil := some ((m.cooldownUntil.map (max · until_)).getD until_) }

@[simp] theorem inFlight_recordFailure (m : Mirror) : m.recordFailure.inFlight = m.inFlight := rfl

@[simp] theorem inFlight_recordBadResponse (m : Mirror) : m.recordBadResponse.inFlight = m.inFlight := rfl

@[simp] theorem inFlight_recordThrottled (m : Mirror) (others : Nat) :
    (m.recordThrottled others).inFlight = m.inFlight := rfl

end Mirror

/-- The mirrors, by their ids. -/
abbrev MirrorRacer := List Mirror

namespace MirrorRacer

def acquireMirror (racer : MirrorRacer) (id : Nat) : MirrorRacer :=
  racer.modify id fun m => { m with inFlight := m.inFlight + 1 }

def releaseMirror (racer : MirrorRacer) (id : Nat) : MirrorRacer :=
  racer.modify id fun m => { m with inFlight := m.inFlight - 1 }

def allInactive (racer : MirrorRacer) : Bool := racer.all fun m => !m.isActive

/-- The connections open to mirror `id`; `none` where there is no such mirror. -/
def openTo (racer : MirrorRacer) (id : Nat) : Option Nat := (racer[id]?).map Mirror.inFlight

theorem openTo_acquire (racer : MirrorRacer) (id i : Nat) :
    (racer.acquireMirror id).openTo i = if id = i then (racer.openTo i).map (· + 1) else racer.openTo i := by
  unfold openTo acquireMirror
  rw [List.getElem?_modify]
  split <;> simp [Function.comp_def]

theorem openTo_release (racer : MirrorRacer) (id i : Nat) :
    (racer.releaseMirror id).openTo i = if id = i then (racer.openTo i).map (· - 1) else racer.openTo i := by
  unfold openTo releaseMirror
  rw [List.getElem?_modify]
  split <;> simp [Function.comp_def]

/-- What is recorded of a mirror leaves its connections. -/
theorem openTo_set {racer : MirrorRacer} {id : Nat} {m m' : Mirror} (hm : racer[id]? = some m)
    (hsame : m'.inFlight = m.inFlight) (i : Nat) : openTo (racer.set id m') i = racer.openTo i := by
  have hlt : id < racer.length := (List.getElem?_eq_some_iff.mp hm).1
  unfold openTo
  rw [List.getElem?_set]
  by_cases hi : id = i
  · subst hi
    rw [if_pos rfl, if_pos hlt, hm, Option.map_some, Option.map_some, hsame]
  · rw [if_neg hi]

theorem openTo_concat (racer : MirrorRacer) (m : Mirror) (i : Nat) :
    openTo (racer ++ [m]) i = if i = racer.length then some m.inFlight else racer.openTo i := by
  unfold openTo
  rw [List.getElem?_append]
  split
  · rw [if_neg (by omega)]
  · split
    · rename_i hi
      simp [hi]
    · rw [List.getElem?_eq_none (by simp; omega), List.getElem?_eq_none (by omega)]

end MirrorRacer

namespace Ftp

/-! ## Settling -/

/-- `THROTTLE_RETRY`, in milliseconds. -/
def throttleRetry : Nat := 500

/-- `THROTTLE_COOLDOWN`, in milliseconds. -/
def throttleCooldown : Nat := 1000

/-- `mark_failed` of a settled chunk, or else the end of the download. -/
def failChunk (m : ChunkManager) (chunkId : Nat) (error : String) (delay : Nat) (counts : Bool) (now : Nat)
    (backoffDelay : Nat → Nat) : ChunkManager :=
  match m.markFailed chunkId error delay counts now backoffDelay with
  | .ok m => m
  | .error e => m.abort chunkId e.message

/-- Applies an attempt's outcome to chunk and mirror. A chunk another worker
took over is no longer this worker's to settle. -/
def settle (racer : MirrorRacer) (m : ChunkManager) (chunk : Chunk) (mirrorId : Nat) (outcome : Outcome)
    (error : String) (now : Nat) (backoffDelay : Nat → Nat) : MirrorRacer × ChunkManager :=
  let racer := racer.releaseMirror mirrorId
  let revoked := (m.cells.leases chunk.lease).revoked
  match outcome with
  | .ok =>
    if revoked then (racer, m)
    else
      match m.markCompleted chunk.id with
      | .ok m => (racer, m)
      | .error e => (racer, m.abort chunk.id e.message)
  | .err kind =>
    match racer[mirrorId]? with
    | none => (racer, m.abort chunk.id error)
    | some mirror =>
      if kind = .fatal then (racer, m.abort chunk.id error)
      else if revoked then (racer.set mirrorId mirror.recordFailure, m)
      else
        match kind with
        | .throttled =>
          let others := mirror.inFlight
          let mirror := mirror.recordThrottled others
          if others > 0 then
            (racer.set mirrorId mirror, failChunk m chunk.id error throttleRetry false now backoffDelay)
          else
            (racer.set mirrorId (mirror.coolDown (now + throttleCooldown)),
              failChunk m chunk.id error throttleCooldown true now backoffDelay)
        | .badMirror | .denied =>
          let racer : MirrorRacer := racer.set mirrorId mirror.recordBadResponse
          if racer.allInactive then (racer, m.abort chunk.id s!"every mirror failed; last error: {error}")
          else (racer, failChunk m chunk.id error 0 false now backoffDelay)
        | _ => (racer.set mirrorId mirror.recordFailure, failChunk m chunk.id error 0 true now backoffDelay)

/-- However an attempt ends, its connection is taken off its mirror, and
nothing else is. -/
theorem openTo_settle (racer : MirrorRacer) (m : ChunkManager) (chunk : Chunk) (mirrorId : Nat) (outcome : Outcome)
    (error : String) (now : Nat) (backoffDelay : Nat → Nat) (i : Nat) :
    (settle racer m chunk mirrorId outcome error now backoffDelay).1.openTo i =
      (racer.releaseMirror mirrorId).openTo i := by
  unfold settle
  generalize racer.releaseMirror mirrorId = racer'
  cases outcome with
  | ok =>
    dsimp only
    split
    · rfl
    · split <;> rfl
  | err kind =>
    dsimp only
    cases hm : racer'[mirrorId]? with
    | none => rfl
    | some mirror =>
      have hset : ∀ mirror' : Mirror, mirror'.inFlight = mirror.inFlight →
          MirrorRacer.openTo (racer'.set mirrorId mirror') i = racer'.openTo i :=
        fun mirror' hsame => MirrorRacer.openTo_set hm hsame i
      dsimp only
      split
      · rfl
      · split
        · exact hset _ (Mirror.inFlight_recordFailure mirror)
        · cases kind with
          | throttled =>
            dsimp only
            split
            · exact hset _ (Mirror.inFlight_recordThrottled mirror _)
            · exact hset _ rfl
          | badMirror | denied =>
            dsimp only
            split <;> exact hset _ (Mirror.inFlight_recordBadResponse mirror)
          | transient | fatal => exact hset _ (Mirror.inFlight_recordFailure mirror)

/-- The chunks are settled as an HTTP worker settles them, with what it makes
of the same failure. -/
theorem settle_eq {racer : MirrorRacer} (m : ChunkManager) (chunk : Chunk) {mirrorId : Nat}
    (hmirror : (racer[mirrorId]?).isSome) (outcome : Outcome) (error : String) (now : Nat)
    (backoffDelay : Nat → Nat) : ∃ verdict,
    (settle racer m chunk mirrorId outcome error now backoffDelay).2 =
      Hyperfetch.settle m chunk outcome error verdict now backoffDelay := by
  obtain ⟨mirror, hm⟩ : ∃ mirror, (racer.releaseMirror mirrorId)[mirrorId]? = some mirror := by
    rw [Option.isSome_iff_exists] at hmirror
    obtain ⟨mirror, hm⟩ := hmirror
    exact ⟨_, by rw [MirrorRacer.releaseMirror, List.getElem?_modify, hm]; rfl⟩
  unfold settle Hyperfetch.settle
  generalize racer.releaseMirror mirrorId = racer' at hm
  cases outcome with
  | ok =>
    refine ⟨.abort "", ?_⟩
    dsimp only
    split
    · rfl
    · cases m.markCompleted chunk.id <;> rfl
  | err kind =>
    dsimp only
    rw [hm]
    dsimp only
    cases hrevoked : (m.cells.leases chunk.lease).revoked with
    | true =>
      refine ⟨.abort "", ?_⟩
      simp only [if_true, Bool.not_true, Bool.false_eq_true, if_false]
      split <;> rfl
    | false =>
      simp only [Bool.false_eq_true, if_false, Bool.not_false, if_true]
      cases kind with
      | transient => exact ⟨.retry 0 true, rfl⟩
      | fatal => exact ⟨.abort "", rfl⟩
      | throttled =>
        dsimp only
        by_cases hothers : mirror.inFlight > 0
        · rw [if_pos hothers]
          exact ⟨.retry throttleRetry false, rfl⟩
        · rw [if_neg hothers]
          exact ⟨.retry throttleCooldown true, rfl⟩
      | badMirror | denied =>
        dsimp only
        by_cases hall : MirrorRacer.allInactive (racer'.set mirrorId mirror.recordBadResponse) = true
        · rw [if_pos hall]
          exact ⟨.abort s!"every mirror failed; last error: {error}", rfl⟩
        · rw [if_neg hall]
          exact ⟨.retry 0 false, rfl⟩

end Ftp

end Hyperfetch
