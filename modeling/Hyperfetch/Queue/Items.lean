import Hyperfetch.Weft.Greedy
import Mathlib.Data.List.Find
import Mathlib.Data.List.Nodup
import Mathlib.Order.Basic
import Mathlib.Data.Nat.Basic

/-!
# The downloads of a queue (`DownloadQueue`)

A queue's items keep an id each, no two the same: ids come from `add_item` and are
given once. What starts next, what moves and what is marked started is modelled
over links and paths of any kind. Whether a link was saved without its secret
(`is_redacted`) is a parameter.

Left out: what an item shows or is fetched with (its name, options, sizes, notes),
which none of this reads. A speed is kept in whole bytes a second.
-/

namespace Hyperfetch.Queue

/-- `SMALL_AT_ONCE`. -/
def smallAtOnce : Nat := 16

/-- Whether a queue that runs `atOnce` downloads at once may start another. -/
def mayStart (running small atOnce : Nat) : Bool :=
  let beside := if 1 < atOnce then min small smallAtOnce else 0
  running - beside < max atOnce 1

inductive QueueItemStatus
  | queued
  | downloading
  | pausing
  | paused
  | completed
  | failed (error : String)
  | authRequired
  deriving DecidableEq, Repr

def QueueItemStatus.isActive : QueueItemStatus → Bool
  | .downloading | .pausing => true
  | _ => false

inductive Priority
  | high
  | normal
  | low
  deriving DecidableEq, Repr

namespace Priority

def rank : Priority → Nat
  | high => 0
  | normal => 1
  | low => 2

theorem rank_injective : Function.Injective rank := by
  intro a b h
  cases a <;> cases b <;> simp_all [rank]

/-- High before Normal, Normal before Low. -/
instance : LinearOrder Priority := LinearOrder.lift' rank rank_injective

def all : List Priority := [high, normal, low]

end Priority

/-- `REDACTED_LINK`. -/
def redactedLink : String := "The link held a secret that was not saved; paste the link again"

structure QueueItem (U P : Type) where
  id : Nat
  /-- Mirrors of one file. -/
  urls : List U
  status : QueueItemStatus := .queued
  speedBytesPerSec : Nat := 0
  /-- Final path reported by the engine, once known. -/
  targetPath : Option P := none
  priority : Priority := .normal
  /-- Running, it is known small. -/
  small : Bool := false
  deriving DecidableEq, Repr

namespace QueueItem

variable {U P : Type} (isRedacted : U → Bool)

/-- Another item that must not run at the same time. -/
def conflictsWith [DecidableEq U] [DecidableEq P] (item other : QueueItem U P) : Bool :=
  item.urls.any (other.urls.contains ·) || item.targetPath.isSome && item.targetPath == other.targetPath

theorem conflictsWith_eq_false [DecidableEq U] [DecidableEq P] {item other : QueueItem U P} :
    item.conflictsWith other = false ↔
      (∀ url ∈ item.urls, url ∉ other.urls) ∧ ∀ path, item.targetPath = some path → other.targetPath ≠ some path := by
  simp only [conflictsWith, Bool.or_eq_false_iff, List.any_eq_false, List.contains_iff_mem]
  refine and_congr_right fun _ => ?_
  cases item.targetPath with
  | none => simp
  | some path =>
    constructor
    · intro h _ hpath hsame
      cases hpath
      simp [hsame] at h
    · intro h
      simpa using fun hsame => h path rfl hsame.symm

def waiting (item : QueueItem U P) : Bool := item.status == .queued

/-- What `mark_started` makes of an item, and whether that started it. -/
def start (item : QueueItem U P) : Bool × QueueItem U P :=
  if item.status.isActive then (false, item)
  else
    let urls := item.urls.filter fun url => !isRedacted url
    if urls.isEmpty && !item.urls.isEmpty then
      (false, { item with urls := urls, status := .failed redactedLink })
    else (true, { item with urls := urls, status := .downloading, speedBytesPerSec := 0, small := false })

/-- Some link is left to start from, or there was none to lose. -/
def hasLink (item : QueueItem U P) : Bool := item.urls.isEmpty || item.urls.any fun url => !isRedacted url

variable {isRedacted}

@[simp] theorem start_id (item : QueueItem U P) : (item.start isRedacted).2.id = item.id := by
  unfold start
  split
  · rfl
  · dsimp only
    split <;> rfl

@[simp] theorem start_priority (item : QueueItem U P) : (item.start isRedacted).2.priority = item.priority := by
  unfold start
  split
  · rfl
  · dsimp only
    split <;> rfl

/-- What is marked started waits no more. -/
theorem start_not_waiting (item : QueueItem U P) : (item.start isRedacted).2.waiting = false := by
  unfold start
  split
  next hactive =>
    cases hs : item.status <;> simp_all [waiting, QueueItemStatus.isActive]
  next =>
    dsimp only
    split <;> rfl

/-- A waiting item is started unless every link it has lost its secret. -/
theorem start_of_waiting {item : QueueItem U P} (h : item.waiting = true) :
    (item.start isRedacted).2.status =
      if item.hasLink isRedacted then .downloading else .failed redactedLink := by
  have hactive : item.status.isActive = false := by
    rw [eq_of_beq h]
    rfl
  simp only [start, hactive, hasLink]
  by_cases hempty : item.urls = []
  · simp [hempty]
  · by_cases hkept : item.urls.any fun url => !isRedacted url
    · obtain ⟨url, hurl, hgood⟩ := List.any_eq_true.mp hkept
      have : (item.urls.filter fun url => !isRedacted url) ≠ [] :=
        List.ne_nil_of_mem (List.mem_filter.mpr ⟨hurl, hgood⟩)
      simp [hkept, this]
    · have : (item.urls.filter fun url => !isRedacted url) = [] := by
        rw [List.filter_eq_nil_iff]
        exact fun url hurl hgood => hkept (List.any_eq_true.mpr ⟨url, hurl, hgood⟩)
      simp [hempty, hkept, this]

end QueueItem

structure DownloadQueue (U P : Type) where
  items : List (QueueItem U P) := []
  nextId : Nat := 1
  /-- Changes whenever the queue may have changed. -/
  revision : Nat := 0
  ids_nodup : (items.map (·.id)).Nodup
  ids_below : ∀ item ∈ items, item.id < nextId

namespace DownloadQueue

variable {U P : Type}

def new : DownloadQueue U P where
  items := []
  ids_nodup := List.nodup_nil
  ids_below := fun _ h => absurd h (List.not_mem_nil)

def addItem (q : DownloadQueue U P) (urls : List U) : DownloadQueue U P where
  items := q.items ++ [{ id := q.nextId, urls := urls }]
  nextId := q.nextId + 1
  revision := q.revision + 1
  ids_nodup := by
    rw [List.map_append, List.nodup_append']
    refine ⟨q.ids_nodup, List.nodup_singleton _, fun id hid hnew => ?_⟩
    obtain ⟨item, hitem, rfl⟩ := List.mem_map.mp hid
    have hbelow := q.ids_below item hitem
    rw [List.mem_singleton.mp hnew] at hbelow
    exact Nat.lt_irrefl _ hbelow
  ids_below := by
    intro item hitem
    rcases List.mem_append.mp hitem with h | h
    · exact Nat.lt_succ_of_lt (q.ids_below item h)
    · rw [List.mem_singleton.mp h]
      exact Nat.lt_succ_self _

/-- Removes an item unless its engine is still running. -/
def removeItem (q : DownloadQueue U P) (id : Nat) : Bool × DownloadQueue U P :=
  let left := q.items.filter fun item => item.id != id || item.status.isActive
  (left.length != q.items.length,
    { items := left
      nextId := q.nextId
      revision := q.revision + 1
      ids_nodup := q.ids_nodup.sublist (List.filter_sublist.map _)
      ids_below := fun item h => q.ids_below item (List.mem_of_mem_filter h) })

def getItem (q : DownloadQueue U P) (id : Nat) : Option (QueueItem U P) := q.items.find? (·.id == id)

/-- Item `id` changed through `get_item_mut`. -/
def update (q : DownloadQueue U P) (id : Nat) (f : QueueItem U P → QueueItem U P) (hf : ∀ item, (f item).id = item.id) :
    DownloadQueue U P where
  items := q.items.map fun item => if item.id = id then f item else item
  nextId := q.nextId
  revision := q.revision + 1
  ids_nodup := by
    rw [List.map_map, List.map_congr_left (g := (·.id)) fun item _ => by simp only [Function.comp_apply]; split <;> simp [hf]]
    exact q.ids_nodup
  ids_below := by
    intro item h
    obtain ⟨before, hbefore, rfl⟩ := List.mem_map.mp h
    split
    · rw [hf]
      exact q.ids_below before hbefore
    · exact q.ids_below before hbefore

def activeCount (q : DownloadQueue U P) : Nat := (q.items.filter (·.status.isActive)).length

/-- Whether the queue, running `maxConcurrent` downloads at once, may start another. -/
def mayStart (q : DownloadQueue U P) (maxConcurrent : Nat) : Bool :=
  Queue.mayStart q.activeCount (q.items.filter fun item => item.status.isActive && item.small).length maxConcurrent

section

variable [DecidableEq U] [DecidableEq P]

/-- Another active item downloading the same file as `id`. -/
def activeConflict (q : DownloadQueue U P) (id : Nat) : Option Nat := do
  let item ← q.getItem id
  let other ← q.items.find? fun other => other.id != id && other.status.isActive && item.conflictsWith other
  some other.id

/-- The queued item to start: the first of the highest priority, but for those
`skip` holds back. -/
def nextToStart (q : DownloadQueue U P) (maxConcurrent : Nat) (skip : Nat → Bool) : Option Nat :=
  if !q.mayStart maxConcurrent then none
  else
    let first := fun priority => q.items.find? fun item =>
      item.priority == priority && (item.status == .queued && !skip item.id && (q.activeConflict item.id).isNone)
    ([Priority.high, .normal, .low].findSome? first).map (·.id)

end

/-- The items with `id` taken out and put in at place `index`, or last. -/
def moved (items : List (QueueItem U P)) (item : QueueItem U P) (index : Nat) : List (QueueItem U P) :=
  let rest := items.eraseP (·.id == item.id)
  rest.take index ++ item :: rest.drop index

theorem moved_perm {items : List (QueueItem U P)} {item : QueueItem U P} {id : Nat}
    (h : items.find? (·.id == id) = some item) (index : Nat) : (moved items item index).Perm items := by
  have hid : item.id = id := by simpa using List.find?_some h
  obtain ⟨-, before, after, rfl, hbefore⟩ := List.find?_eq_some_iff_append.mp h
  have herase : (before ++ item :: after).eraseP (·.id == item.id) = before ++ after := by
    rw [List.eraseP_append_right, List.eraseP_cons_of_pos (by simp)]
    intro other hother
    simpa [hid] using hbefore other hother
  rw [moved, herase]
  refine List.perm_middle.trans (List.Perm.trans ?_ List.perm_middle.symm)
  rw [List.take_append_drop]

/-- Moves item `id` to place `index` of the list (the last one past its end). -/
def moveItem (q : DownloadQueue U P) (id index : Nat) : Bool × DownloadQueue U P :=
  match h : q.getItem id with
  | none => (false, q)
  | some item =>
    (true,
      { items := moved q.items item index
        nextId := q.nextId
        revision := q.revision + 1
        ids_nodup := ((moved_perm h index).map _).nodup_iff.mpr q.ids_nodup
        ids_below := fun other hother => q.ids_below other ((moved_perm h index).mem_iff.mp hother) })

theorem moveItem_items {q : DownloadQueue U P} {id : Nat} {item : QueueItem U P} (h : q.getItem id = some item)
    (index : Nat) : (q.moveItem id index).2.items = moved q.items item index := by
  unfold moveItem
  split
  next hnone => simp [h] at hnone
  next found hfound =>
    dsimp only
    rw [Option.some.inj (h.symm.trans hfound)]

/-- The highest priority among the waiting items. -/
def top (q : DownloadQueue U P) : Priority := ((q.items.filter (·.waiting)).map (·.priority)).min?.getD .normal

/-- Puts waiting item `id` first among the waiting ones, as high as the highest
priority among them. -/
def downloadNext (q : DownloadQueue U P) (id : Nat) : Bool × DownloadQueue U P :=
  if (q.getItem id).any (·.waiting) then
    let first := q.items.findIdx (·.waiting)
    (true, (q.moveItem id first).2.update id (fun item => { item with priority := min item.priority q.top }) fun _ => rfl)
  else (false, q)

variable (isRedacted : U → Bool)

/-- Marks the item as running. Returns false if it is missing or already active,
or if every link it has was saved without its secret: it then fails. -/
def markStarted (q : DownloadQueue U P) (id : Nat) : Bool × DownloadQueue U P :=
  ((q.getItem id).any (·.start isRedacted |>.1), q.update id (·.start isRedacted |>.2) QueueItem.start_id)

/-- Starting by repeated `next_to_start` and `mark_started`: each item tried, with
the queue before, and the queue left. -/
def startAll [DecidableEq U] [DecidableEq P] (q : DownloadQueue U P) (maxConcurrent : Nat) (skip : Nat → Bool) :
    List (DownloadQueue U P × Nat) × DownloadQueue U P :=
  Weft.rounds (nextToStart · maxConcurrent skip) (fun q id => (q.markStarted isRedacted id).2) q.items.length q

end DownloadQueue

end Hyperfetch.Queue
