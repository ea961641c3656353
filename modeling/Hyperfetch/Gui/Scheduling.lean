import Hyperfetch.Gui.Jobs

/-!
# The scheduler leaves nothing it could start

What does not start is held back for the rest of one `run_scheduler`. It could not have
started later in it either: what kept it is there still when the loop ends.
-/

namespace Hyperfetch.Gui

open Queue Weft DownloadQueue

namespace App

variable {U P : Type}

/-- What a start leaves: everything but the items' statuses, and what it makes of these. -/
structure Tried (app after : App U P) : Prop where
  installFfmpeg : after.installFfmpeg = app.installFfmpeg
  ffmpegFound : after.ffmpegFound = app.ffmpegFound
  media : after.media = app.media
  repair : after.repair = app.repair
  resuming : after.resuming = app.resuming
  maxConcurrent : after.maxConcurrent = app.maxConcurrent
  items : ∃ change : QueueItem U P → QueueItem U P, after.queue.items = app.queue.items.map change ∧
    ∀ item, (change item).id = item.id ∧ (change item).targetPath = item.targetPath ∧ ((change item).waiting = true → item.waiting = true)

theorem Tried.refl (app : App U P) : Tried app app :=
  ⟨rfl, rfl, rfl, rfl, rfl, rfl, id, (List.map_id _).symm, fun _ => ⟨rfl, rfl, fun h => h⟩⟩

theorem Tried.trans {app mid after : App U P} (h : Tried app mid) (h' : Tried mid after) : Tried app after := by
  obtain ⟨change, hitems, hchange⟩ := h.items
  obtain ⟨change', hitems', hchange'⟩ := h'.items
  refine ⟨h'.installFfmpeg.trans h.installFfmpeg, h'.ffmpegFound.trans h.ffmpegFound, h'.media.trans h.media,
    h'.repair.trans h.repair, h'.resuming.trans h.resuming, h'.maxConcurrent.trans h.maxConcurrent, change' ∘ change, ?_, ?_⟩
  · rw [hitems', hitems, List.map_map]
  · intro item
    obtain ⟨hid, htarget, hwaits⟩ := hchange item
    obtain ⟨hid', htarget', hwaits'⟩ := hchange' (change item)
    exact ⟨hid'.trans hid, htarget'.trans htarget, fun hw => hwaits (hwaits' hw)⟩

/-- An item of the queue after it, and what it was. -/
theorem Tried.getItem {app after : App U P} (h : Tried app after) (id : Nat) :
    (after.queue.getItem id).isSome = (app.queue.getItem id).isSome ∧
      (after.queue.getItem id).bind (·.targetPath) = (app.queue.getItem id).bind (·.targetPath) := by
  obtain ⟨change, hitems, hchange⟩ := h.items
  have hfind : after.queue.getItem id = (app.queue.getItem id).map change := by
    unfold DownloadQueue.getItem
    rw [hitems, List.find?_map]
    congr 2
    funext item
    show ((change item).id == id) = (item.id == id)
    rw [(hchange item).1]
  rw [hfind]
  cases app.queue.getItem id with
  | none => exact ⟨rfl, rfl⟩
  | some item => exact ⟨rfl, (hchange item).2.1⟩

theorem Tried.waits {app after : App U P} (h : Tried app after) (id : Nat) :
    after.waitsForFfmpegAnswer id = app.waitsForFfmpegAnswer id := by
  unfold waitsForFfmpegAnswer
  rw [h.installFfmpeg, h.ffmpegFound, h.media, (h.getItem id).1]

theorem underRepair_eq [DecidableEq P] (samePath : P → P → Bool) (app : App U P) (id : Nat) :
    app.underRepair samePath id = app.repair.any fun target =>
      ((app.queue.getItem id).bind (·.targetPath)).any fun path => path == target || samePath path target := by
  unfold underRepair
  cases app.queue.getItem id <;> rfl

theorem Tried.underRepair [DecidableEq P] {samePath : P → P → Bool} {app after : App U P} (h : Tried app after) (id : Nat) :
    after.underRepair samePath id = app.underRepair samePath id := by
  rw [underRepair_eq, underRepair_eq, h.repair, (h.getItem id).2]

/-- What does not wait before it does not after it. -/
theorem Tried.not_waiting {app after : App U P} (h : Tried app after) {id : Nat}
    (hnot : ∀ item ∈ app.queue.items, item.id = id → item.waiting = false) :
    ∀ item ∈ after.queue.items, item.id = id → item.waiting = false := by
  obtain ⟨change, hitems, hchange⟩ := h.items
  intro item hitem hid
  rw [hitems] at hitem
  obtain ⟨before, hbefore, rfl⟩ := List.mem_map.mp hitem
  obtain ⟨hsame, -, hwaits⟩ := hchange before
  rw [Bool.eq_false_iff]
  intro hw
  have hwas := hnot before hbefore (hsame.symm.trans hid)
  rw [hwaits hw] at hwas
  cases hwas

variable [DecidableEq U] [DecidableEq P] {isRedacted : U → Bool} {samePath : P → P → Bool}

/-- Why download `id` does not start. -/
def HeldUp (samePath : P → P → Bool) (app : App U P) (id : Nat) : Prop :=
  app.waitsForFfmpegAnswer id = true ∨ app.underRepair samePath id = true ∨
    ∀ item ∈ app.queue.items, item.id = id → item.waiting = false

omit [DecidableEq U] in
theorem HeldUp.tried {app after : App U P} {id : Nat} (h : HeldUp samePath app id) (htried : Tried app after) :
    HeldUp samePath after id := by
  rcases h with hwaits | hrepair | hnot
  · exact .inl (by rw [htried.waits, hwaits])
  · exact .inr (.inl (by rw [htried.underRepair, hrepair]))
  · exact .inr (.inr (htried.not_waiting hnot))

/-- The downloads that wait and are not held back. -/
def untried (s : App U P × List Nat) : Nat := s.1.queue.items.countP fun item => item.waiting && !s.2.contains item.id

end App

end Hyperfetch.Gui
