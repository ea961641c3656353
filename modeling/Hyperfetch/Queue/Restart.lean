import Hyperfetch.Queue.Operations
import Mathlib.Logic.Relation

/-!
# A queue that is saved (`settle_for_restart`, `queue_store::save`, `queue_store::load`)

A queue is saved as it is to be after a restart, when nothing runs. What is saved is
told by what the revision counts (`fixed`): progress is not.

Parameters: what of a link and of a text is kept (`redact_url`, `redact_text`). What is
saved is read back as it was: JSON is left out, and with it a file that is damaged. Of
an item's options only whether it has an Authorization header and a playlist a page
built are asked for here, and neither is saved.
-/

namespace Hyperfetch.Queue

variable {U P : Type} (redactUrl : U → U) (redactText : String → String)

/-- What `save` says of a playlist that is lost. -/
def builtMessage : String := "The playlist the page built is not kept once the app closes: send it from the browser again"

/-- What the options of the items have that is not saved. -/
structure Unsaved where
  authed : Nat → Bool := fun _ => false
  built : Nat → Bool := fun _ => false

/-- What becomes of a status where nothing is lost. -/
def QueueItemStatus.restarted : QueueItemStatus → QueueItemStatus
  | .downloading | .pausing => .paused
  | .failed error => .failed (redactText (redactText error))
  | status => status

namespace QueueItem

/-- The item to resume from after a restart, when no engine runs. -/
def settle (authed : Bool) (item : QueueItem U P) : QueueItem U P :=
  let status := if item.status.isActive then .paused else item.status
  let status := if authed && status != .completed then .authRequired else status
  let item := { item with speedBytesPerSec := 0 }
  match status with
  | .completed => { item with status := .completed, urls := item.urls.map redactUrl }
  | .failed error => { item with status := .failed (redactText error), urls := item.urls.map redactUrl }
  | status => { item with status := status }

/-- An item without its progress. -/
def fixed (item : QueueItem U P) : QueueItem U P := { item with speedBytesPerSec := 0, small := false }

/-- What is written of an item. -/
def saved (unsaved : Unsaved) (item : QueueItem U P) : QueueItem U P :=
  let item := if unsaved.built item.id && item.status != .completed then item.finish (.error builtMessage) else item
  { item.settle redactUrl redactText (unsaved.authed item.id) with small := false }

@[simp] theorem settle_id (authed : Bool) (item : QueueItem U P) : (item.settle redactUrl redactText authed).id = item.id := by
  unfold settle
  dsimp only
  split <;> rfl

@[simp] theorem saved_id (unsaved : Unsaved) (item : QueueItem U P) : (item.saved redactUrl redactText unsaved).id = item.id := by
  unfold saved
  dsimp only
  rw [settle_id]
  split
  · exact finish_id _ item
  · rfl

/-- Nothing runs after a restart. -/
@[simp] theorem settle_active (authed : Bool) (item : QueueItem U P) :
    (item.settle redactUrl redactText authed).status.isActive = false := by
  unfold settle
  dsimp only
  cases item.status <;> cases authed <;> rfl

theorem settle_fixed (authed : Bool) (item : QueueItem U P) :
    { item.fixed.settle redactUrl redactText authed with small := false } =
      { item.settle redactUrl redactText authed with small := false } := by
  unfold settle fixed
  dsimp only
  cases item.status <;> cases authed <;> rfl

theorem finish_fixed (e : String) (item : QueueItem U P) : (item.fixed.finish (.error e)).fixed = (item.finish (.error e)).fixed := by
  unfold finish fixed
  dsimp only
  split <;> rfl

/-- Progress is not saved. -/
theorem saved_fixed (unsaved : Unsaved) (item : QueueItem U P) :
    item.fixed.saved redactUrl redactText unsaved = item.saved redactUrl redactText unsaved := by
  have hfixed : ∀ a b : QueueItem U P, a.fixed = b.fixed →
      { a.settle redactUrl redactText (unsaved.authed a.id) with small := false } =
        { b.settle redactUrl redactText (unsaved.authed b.id) with small := false } := by
    intro a b hab
    have hid : a.id = b.id := (congrArg QueueItem.id hab :)
    rw [← settle_fixed, hab, hid, settle_fixed]
  unfold saved
  apply hfixed
  show QueueItem.fixed (if unsaved.built item.id && item.status != .completed then _ else _) = _
  split
  · exact finish_fixed builtMessage item
  · rfl

/-- A download that is lost is so once. -/
theorem finish_finish {e : String} (he : e ≠ cancelled) (item : QueueItem U P) :
    (item.finish (.error e)).finish (.error e) = item.finish (.error e) := by
  simp only [finish, he, and_false, if_false]

/-- An item as the next process has it. -/
def restarted (unsaved : Unsaved) (item : QueueItem U P) : QueueItem U P :=
  (item.saved redactUrl redactText unsaved).settle redactUrl redactText false

/-- What ran is paused, and what is finished stays so; what lost what it needs waits for it, or
failed. -/
theorem restarted_status (unsaved : Unsaved) (item : QueueItem U P) :
    (item.restarted redactUrl redactText unsaved).status =
      if item.status = .completed then .completed
      else if unsaved.authed item.id then .authRequired
      else if unsaved.built item.id then .failed (redactText (redactText builtMessage))
      else item.status.restarted redactText := by
  have hmessage : builtMessage ≠ cancelled := by decide
  obtain ⟨id, urls, status, speed, target, priority, small⟩ := item
  unfold restarted saved settle finish
  cases hauthed : unsaved.authed id <;> cases hbuilt : unsaved.built id <;> cases status <;>
    simp [hauthed, hmessage, QueueItemStatus.isActive, QueueItemStatus.restarted]

/-- A download that is to go on keeps its links whole. -/
theorem restarted_urls (unsaved : Unsaved) {item : QueueItem U P} (hcompleted : item.status ≠ .completed)
    (hfailed : ∀ error, item.status ≠ .failed error) (hbuilt : unsaved.built item.id = false) :
    (item.restarted redactUrl redactText unsaved).urls = item.urls := by
  obtain ⟨id, urls, status, speed, target, priority, small⟩ := item
  unfold restarted saved settle
  dsimp only at hcompleted hfailed hbuilt
  cases hauthed : unsaved.authed id <;> cases status <;> simp_all [QueueItemStatus.isActive]

end QueueItem

namespace DownloadQueue

theorem eq_of {q q' : DownloadQueue U P} (hitems : q.items = q'.items) (hnext : q.nextId = q'.nextId) (hrev : q.revision = q'.revision) :
    q = q' := by
  cases q
  cases q'
  cases hitems
  cases hnext
  cases hrev
  rfl

/-- Every item changed. -/
def mapItems (q : DownloadQueue U P) (f : QueueItem U P → QueueItem U P) (hf : ∀ item, (f item).id = item.id) (revision : Nat) :
    DownloadQueue U P where
  items := q.items.map f
  nextId := q.nextId
  revision := revision
  ids_nodup := by
    have hids : (q.items.map f).map (·.id) = q.items.map (·.id) := by
      rw [List.map_map]
      exact List.map_congr_left fun item _ => hf item
    rw [hids]
    exact q.ids_nodup
  ids_below := by
    intro item h
    obtain ⟨before, hbefore, rfl⟩ := List.mem_map.mp h
    rw [hf]
    exact q.ids_below before hbefore

def settleForRestart (authed : Nat → Bool) (q : DownloadQueue U P) : DownloadQueue U P :=
  q.mapItems (fun item => item.settle redactUrl redactText (authed item.id)) (fun item => QueueItem.settle_id _ _ _ item) (q.revision + 1)

/-- What is written of a queue: neither its revision nor what is known small. -/
def serialized (q : DownloadQueue U P) : DownloadQueue U P := q.mapItems (fun item => { item with small := false }) (fun _ => rfl) 0

/-- `save`: the file that is written. -/
def save (unsaved : Unsaved) (q : DownloadQueue U P) : DownloadQueue U P :=
  let lost := (q.items.filter fun item => unsaved.built item.id && item.status != .completed).map (·.id)
  let q := lost.foldl (fun q id => q.finish id (.error builtMessage)) q
  (q.settleForRestart redactUrl redactText unsaved.authed).serialized

/-- `load`: a missing file is an empty queue. -/
def load (file : Option (DownloadQueue U P)) : DownloadQueue U P :=
  match file with
  | none => new
  | some q => q.settleForRestart redactUrl redactText fun _ => false

/-! ## What is saved -/

theorem finishes_items (lost : List Nat) (q : DownloadQueue U P) :
    (lost.foldl (fun q id => q.finish id (.error builtMessage)) q).items =
      q.items.map fun item => if item.id ∈ lost then item.finish (.error builtMessage) else item := by
  have hnot : builtMessage ≠ cancelled := by decide
  induction lost generalizing q with
  | nil => simp
  | cons id lost ih =>
    rw [List.foldl_cons, ih, finish, update, List.map_map]
    refine List.map_congr_left fun item _ => ?_
    simp only [Function.comp_apply, List.mem_cons]
    by_cases hid : item.id = id
    · have hlost : item.id = id ∨ item.id ∈ lost := .inl hid
      rw [if_pos hid, QueueItem.finish_id, if_pos hlost]
      split
      · exact QueueItem.finish_finish hnot item
      · rfl
    · rw [if_neg hid]
      simp only [hid, false_or]

theorem finishes_nextId (lost : List Nat) (q : DownloadQueue U P) :
    (lost.foldl (fun q id => q.finish id (.error builtMessage)) q).nextId = q.nextId := by
  induction lost generalizing q with
  | nil => rfl
  | cons id lost ih => rw [List.foldl_cons, ih, finish, update]

/-- A queue is saved item by item. -/
theorem save_items (unsaved : Unsaved) (q : DownloadQueue U P) :
    (q.save redactUrl redactText unsaved).items = q.items.map (·.saved redactUrl redactText unsaved) := by
  unfold save serialized settleForRestart mapItems
  dsimp only
  rw [finishes_items, List.map_map, List.map_map]
  refine List.map_congr_left fun item hitem => ?_
  have hlost : item.id ∈ (q.items.filter fun item => unsaved.built item.id && item.status != .completed).map (·.id) ↔
      (unsaved.built item.id && item.status != .completed) = true := by
    constructor
    · intro h
      obtain ⟨other, hother, hid⟩ := List.mem_map.mp h
      obtain ⟨hmem, hkept⟩ := List.mem_filter.mp hother
      rwa [← eq_of_id hmem hitem hid]
    · exact fun h => List.mem_map_of_mem (List.mem_filter.mpr ⟨hitem, h⟩)
  simp only [Function.comp_apply, hlost]
  rfl

theorem save_nextId (unsaved : Unsaved) (q : DownloadQueue U P) : (q.save redactUrl redactText unsaved).nextId = q.nextId :=
  finishes_nextId _ q

/-! ## Changes of a queue -/

/-- What a change that the revision does not count leaves. -/
def fixed (q : DownloadQueue U P) : List (QueueItem U P) × Nat := (q.items.map QueueItem.fixed, q.nextId)

/-- Progress is not saved. -/
theorem save_congr (unsaved : Unsaved) {q q' : DownloadQueue U P} (h : q.fixed = q'.fixed) :
    q.save redactUrl redactText unsaved = q'.save redactUrl redactText unsaved := by
  obtain ⟨hitems, hnext⟩ := Prod.mk.inj h
  refine eq_of ?_ ?_ rfl
  · rw [save_items, save_items]
    have hmap : ∀ items : List (QueueItem U P), items.map (·.saved redactUrl redactText unsaved) =
        (items.map QueueItem.fixed).map (·.saved redactUrl redactText unsaved) := by
      intro items
      rw [List.map_map]
      exact List.map_congr_left fun item _ => (QueueItem.saved_fixed _ _ unsaved item).symm
    rw [hmap, hitems, ← hmap]
  · rw [save_nextId, save_nextId, hnext]

/-- `after` comes of `q`, and where the revision is the same all that is saved is. -/
def Since (q after : DownloadQueue U P) : Prop := q.revision ≤ after.revision ∧ (after.revision = q.revision → after.fixed = q.fixed)

theorem Since.refl (q : DownloadQueue U P) : Since q q := ⟨Nat.le_refl _, fun _ => rfl⟩

theorem Since.trans {q mid after : DownloadQueue U P} (h : Since q mid) (h' : Since mid after) : Since q after := by
  refine ⟨Nat.le_trans h.1 h'.1, fun heq => ?_⟩
  have hle := h.1
  have hle' := h'.1
  exact (h'.2 (by omega)).trans (h.2 (by omega))

theorem since_of_lt {q after : DownloadQueue U P} (h : q.revision < after.revision) : Since q after :=
  ⟨Nat.le_of_lt h, fun heq => absurd heq (Nat.ne_of_gt h)⟩

/-- The operations that change a queue. -/
inductive Op [DecidableEq P] : DownloadQueue U P → DownloadQueue U P → Prop
  | addItem (q : DownloadQueue U P) (urls : List U) : Op q (q.addItem urls)
  | removeItem (q : DownloadQueue U P) (id : Nat) : Op q (q.removeItem id).2
  | retain (q : DownloadQueue U P) (keep : QueueItem U P → Bool) : Op q (q.retain keep)
  | update (q : DownloadQueue U P) (id : Nat) (f : QueueItem U P → QueueItem U P) (hf : ∀ item, (f item).id = item.id) :
      Op q (q.update id f hf)
  | moveItem (q : DownloadQueue U P) (id index : Nat) : Op q (q.moveItem id index).2
  | applySnapshot (q : DownloadQueue U P) (id : Nat) (snapshot : Snapshot P) : Op q (q.applySnapshot id snapshot)

/-- Changed by its operations. -/
def Ops [DecidableEq P] : DownloadQueue U P → DownloadQueue U P → Prop := Relation.ReflTransGen Op

theorem progress_fixed [DecidableEq P] {snapshot : Snapshot P} {item : QueueItem U P}
    (h : snapshot.fromProbe = true ∨ ∀ target, snapshot.targetPath = some target → item.targetPath = some target) :
    (item.progress snapshot).fixed = item.fixed := by
  unfold QueueItem.progress
  dsimp only
  split
  next => rfl
  next hprobe =>
    have htarget : (snapshot.targetPath <|> item.targetPath) = item.targetPath := by
      cases hsnapshot : snapshot.targetPath with
      | none => rfl
      | some target => exact ((h.resolve_left hprobe) target hsnapshot).symm
    rw [htarget]
    rfl

theorem since_applySnapshot [DecidableEq P] (q : DownloadQueue U P) (id : Nat) (snapshot : Snapshot P) :
    Since q (q.applySnapshot id snapshot) := by
  unfold applySnapshot
  split
  · exact Since.refl q
  next item hitem =>
    obtain ⟨hmem, hid⟩ := getItem_eq_some.mp hitem
    refine ⟨Nat.le_add_right _ _, fun hsame => ?_⟩
    have hsame : (if snapshot.fromProbe then 0
        else (if snapshot.targetPath.isSome && snapshot.targetPath != item.targetPath then 1 else 0) +
          if snapshot.notes.isEmpty then 0 else 1) = 0 := Nat.add_eq_left.mp hsame
    have hfixed : snapshot.fromProbe = true ∨ ∀ target, snapshot.targetPath = some target → item.targetPath = some target := by
      by_contra hnot
      obtain ⟨hprobe, hother⟩ := not_or.mp hnot
      push Not at hother
      obtain ⟨target, htarget, hne⟩ := hother
      rw [if_neg hprobe, htarget, if_pos (by simpa using hne.symm)] at hsame
      omega
    refine Prod.ext ?_ rfl
    show ((q.items.map _).map QueueItem.fixed) = q.items.map QueueItem.fixed
    rw [List.map_map]
    refine List.map_congr_left fun other hother => ?_
    simp only [Function.comp_apply]
    split
    next hsameid => rw [eq_of_id hother hmem (hsameid.trans hid.symm), progress_fixed hfixed]
    next => rfl

theorem Op.since [DecidableEq P] {q after : DownloadQueue U P} (h : Op q after) : Since q after := by
  cases h with
  | moveItem id index =>
    unfold DownloadQueue.moveItem
    split
    · exact Since.refl q
    · exact since_of_lt (Nat.lt_succ_self _)
  | applySnapshot id snapshot => exact since_applySnapshot q id snapshot
  | addItem | removeItem | retain | update => exact since_of_lt (Nat.lt_succ_self _)

theorem Ops.since [DecidableEq P] {q after : DownloadQueue U P} (h : Ops q after) : Since q after := by
  induction h with
  | refl => exact Since.refl q
  | tail _ hop ih => exact ih.trans hop.since

/-! ## After a restart -/

/-- What is saved is loaded item by item. -/
theorem load_save_items (unsaved : Unsaved) (q : DownloadQueue U P) :
    (load redactUrl redactText (some (q.save redactUrl redactText unsaved))).items = q.items.map (·.restarted redactUrl redactText unsaved) := by
  show (q.save redactUrl redactText unsaved).items.map (·.settle redactUrl redactText false) = _
  rw [save_items, List.map_map]
  rfl

/-- Nothing runs in a queue that is loaded. -/
theorem not_active_load (file : Option (DownloadQueue U P)) (id : Nat) : ¬(load redactUrl redactText file).Active id := by
  rintro ⟨item, hitem, -, hactive⟩
  cases file with
  | none => cases hitem
  | some q =>
    obtain ⟨before, -, rfl⟩ := List.mem_map.mp hitem
    rw [QueueItem.settle_active] at hactive
    cases hactive

end DownloadQueue

end Hyperfetch.Queue
