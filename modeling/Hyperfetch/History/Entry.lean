import Hyperfetch.Weft.Recent

/-!
# The entries of the history (`history.rs`)

An entry, the changes a manager makes to a list of entries, and what a list is
brought back to after each: newest first, one entry per file path, at most
`MAX_ENTRIES`.

Parameters: how a link and a message lose their secrets, and what two paths
are compared by (`Path` compares components, not how they are written).
-/

namespace Hyperfetch.History

open Weft

/-- `MAX_ENTRIES`. -/
def maxEntries : Nat := 1000

inductive HistoryStatus
  | completed
  | failed (reason : String)
  | cancelled
  deriving DecidableEq, Repr

structure HistoryEntry (P : Type) where
  id : String
  fileName : String
  filePath : P
  fileSize : Nat
  downloadedBytes : Nat
  urls : List String
  status : HistoryStatus
  blake3Hash : Option String
  sha256Hash : Option String
  /-- Unix seconds when the download started. -/
  startedAt : Nat
  completedAt : Option Nat
  etag : Option String
  deriving DecidableEq, Repr

/-- How secrets are taken out, and what paths are compared by. -/
structure Setting (P K : Type) where
  redactUrl : String → String
  redactText : String → String
  components : P → K

variable {P K : Type} [DecidableEq K]

namespace HistoryEntry

/-- Takes the secrets out of the links and of a failure message. -/
def redact (w : Setting P K) (e : HistoryEntry P) : HistoryEntry P :=
  { e with
    urls := e.urls.map w.redactUrl
    status := match e.status with
      | .failed reason => .failed (w.redactText reason)
      | status => status }

def recency (e : HistoryEntry P) : Nat := e.completedAt.getD e.startedAt

end HistoryEntry

/-- Newest first, one entry per file path, at most `MAX_ENTRIES`. -/
def normalize (w : Setting P K) (entries : List (HistoryEntry P)) : List (HistoryEntry P) :=
  newestFirst (fun e => w.components e.filePath) HistoryEntry.recency maxEntries entries

/-- A change made through a manager. -/
inductive Change (P : Type)
  | upsert (entry : HistoryEntry P)
  | remove (id : String)
  /-- Removes the entries of this file. -/
  | removeFile (path : P)
  | clear

namespace Change

/-- Applies the change; also whether it altered `entries`. -/
def apply (w : Setting P K) : Change P → List (HistoryEntry P) → List (HistoryEntry P) × Bool
  | .upsert entry, entries =>
    let kept := entries.filter fun e =>
      e.id != entry.id && decide (w.components e.filePath ≠ w.components entry.filePath)
    (entry.redact w :: kept, true)
  | .remove id, entries =>
    let kept := entries.filter (·.id != id)
    (kept, kept.length != entries.length)
  | .removeFile path, entries =>
    let kept := entries.filter fun e => decide (w.components e.filePath ≠ w.components path)
    (kept, kept.length != entries.length)
  | .clear, entries => ([], entries.length != 0)

end Change

/-- The changes of one save, replayed onto what the file held. -/
def replay (w : Setting P K) (changes : List (Change P)) (entries : List (HistoryEntry P)) : List (HistoryEntry P) :=
  normalize w (changes.foldl (fun es change => (change.apply w es).1) entries)

/-- What a saved history looks like. -/
structure Normal (w : Setting P K) (entries : List (HistoryEntry P)) : Prop where
  few : entries.length ≤ maxEntries
  newest : entries.Pairwise fun e f => f.recency ≤ e.recency
  onePerPath : (entries.map fun e => w.components e.filePath).Nodup

theorem normal_replay (w : Setting P K) (changes : List (Change P)) (entries : List (HistoryEntry P)) :
    Normal w (replay w changes entries) :=
  ⟨newestFirst_length _ _, newestFirst_sorted _ _, newestFirst_nodup _ _⟩

/-! ## Redaction -/

/-- No secret is left to take out. -/
def Redacted (w : Setting P K) (e : HistoryEntry P) : Prop := e.redact w = e

omit [DecidableEq K] in
theorem redact_all {w : Setting P K} {entries : List (HistoryEntry P)} (h : ∀ e ∈ entries, Redacted w e) :
    entries.map (HistoryEntry.redact w) = entries := by
  induction entries with
  | nil => rfl
  | cons e rest ih =>
    rw [List.map_cons, h e List.mem_cons_self, ih fun f hf => h f (List.mem_cons_of_mem _ hf)]

/-- Where taking secrets out twice is taking them out once, a change leaves
entries without secrets. -/
theorem redacted_apply {w : Setting P K} (hw : ∀ e : HistoryEntry P, (e.redact w).redact w = e.redact w)
    (change : Change P) {entries : List (HistoryEntry P)} (h : ∀ e ∈ entries, Redacted w e) :
    ∀ e ∈ (change.apply w entries).1, Redacted w e := by
  intro e he
  cases change with
  | upsert entry =>
    rcases List.mem_cons.mp he with rfl | he
    · exact hw entry
    · exact h e (List.mem_of_mem_filter he)
  | remove id => exact h e (List.mem_of_mem_filter he)
  | removeFile path => exact h e (List.mem_of_mem_filter he)
  | clear => cases he

theorem redacted_replay {w : Setting P K} (hw : ∀ e : HistoryEntry P, (e.redact w).redact w = e.redact w)
    (changes : List (Change P)) {entries : List (HistoryEntry P)} (h : ∀ e ∈ entries, Redacted w e) :
    ∀ e ∈ replay w changes entries, Redacted w e := by
  intro e he
  have hmem := mem_of_mem_newestFirst he
  have hall : ∀ f ∈ changes.foldl (fun es change => (change.apply w es).1) entries, Redacted w f := by
    clear he hmem
    induction changes generalizing entries with
    | nil => exact h
    | cons change rest ih => exact ih (redacted_apply hw change h)
  exact hall e hmem

end Hyperfetch.History
