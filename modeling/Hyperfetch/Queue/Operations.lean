import Hyperfetch.Queue.Schedule

/-!
# What becomes of a download (`DownloadQueue`, the rest)

A download that is started is active until its engine's result is taken; a pause only
asks for that. What each operation leaves of the items that run is said once for each,
as what it does to `Active` and to the links of an item.

Left out as in `Items`: an item's options, name, sizes and notes. A snapshot has them
where something else is taken from it.
-/

namespace Hyperfetch.Queue

/-- `CANCELLED`. -/
def cancelled : String := "Download cancelled by user"

/-- `EngineSnapshot`. -/
structure Snapshot (P : Type) where
  totalBytes : Nat := 0
  downloadedBytes : Nat := 0
  speedBytesPerSec : Nat := 0
  targetPath : Option P := none
  notes : List String := []
  small : Bool := false
  deriving DecidableEq, Repr

/-- The probe's early word that the file is small. -/
def Snapshot.fromProbe {P : Type} (snapshot : Snapshot P) : Bool := snapshot.small && snapshot.targetPath.isNone

namespace QueueItem

variable {U P : Type}

def pausing (item : QueueItem U P) : QueueItem U P :=
  if item.status = .downloading then { item with status := .pausing } else item

/-- What a snapshot changes; `is_finishing` is asked of the sizes it brings. -/
def progress (snapshot : Snapshot P) (item : QueueItem U P) : QueueItem U P :=
  let item := { item with small := snapshot.small }
  if snapshot.fromProbe then item
  else
    let finishing := item.status == .downloading && 0 < snapshot.totalBytes && snapshot.totalBytes ≤ snapshot.downloadedBytes
    { item with
      speedBytesPerSec := if finishing then 0 else snapshot.speedBytesPerSec
      targetPath := snapshot.targetPath <|> item.targetPath }

/-- Settles a finished engine run. A run that ends while pausing is paused when the
pause stopped it. -/
def finish (result : Except String P) (item : QueueItem U P) : QueueItem U P :=
  let stopped := { item with speedBytesPerSec := 0 }
  match result with
  | .ok path => { stopped with targetPath := some path, status := .completed }
  | .error e =>
    if item.status = .pausing ∧ e = cancelled then { stopped with status := .paused } else { stopped with status := .failed e }

def withAuth (item : QueueItem U P) : QueueItem U P :=
  if item.status = .authRequired then { item with status := .paused } else item

def relink (urls : List U) (item : QueueItem U P) : QueueItem U P :=
  if item.status.isActive then item
  else
    { item with
      urls := urls
      status := match item.status with
        | .failed _ => .paused
        | status => status }

@[simp] theorem pausing_id (item : QueueItem U P) : item.pausing.id = item.id := by
  unfold pausing
  split <;> rfl

@[simp] theorem progress_id (snapshot : Snapshot P) (item : QueueItem U P) : (item.progress snapshot).id = item.id := by
  unfold progress
  dsimp only
  split <;> rfl

@[simp] theorem finish_id (result : Except String P) (item : QueueItem U P) : (item.finish result).id = item.id := by
  unfold finish
  cases result with
  | ok path => rfl
  | error e =>
    dsimp only
    split <;> rfl

@[simp] theorem withAuth_id (item : QueueItem U P) : item.withAuth.id = item.id := by
  unfold withAuth
  split <;> rfl

@[simp] theorem relink_id (urls : List U) (item : QueueItem U P) : (item.relink urls).id = item.id := by
  unfold relink
  split <;> rfl

@[simp] theorem pausing_urls (item : QueueItem U P) : item.pausing.urls = item.urls := by
  unfold pausing
  split <;> rfl

@[simp] theorem progress_urls (snapshot : Snapshot P) (item : QueueItem U P) : (item.progress snapshot).urls = item.urls := by
  unfold progress
  dsimp only
  split <;> rfl

@[simp] theorem finish_urls (result : Except String P) (item : QueueItem U P) : (item.finish result).urls = item.urls := by
  unfold finish
  cases result with
  | ok path => rfl
  | error e =>
    dsimp only
    split <;> rfl

@[simp] theorem withAuth_urls (item : QueueItem U P) : item.withAuth.urls = item.urls := by
  unfold withAuth
  split <;> rfl

@[simp] theorem pausing_active (item : QueueItem U P) : item.pausing.status.isActive = item.status.isActive := by
  unfold pausing
  split
  next h => rw [h]; rfl
  next => rfl

@[simp] theorem progress_status (snapshot : Snapshot P) (item : QueueItem U P) : (item.progress snapshot).status = item.status := by
  unfold progress
  dsimp only
  split <;> rfl

/-- A run that is settled is over. -/
@[simp] theorem finish_active (result : Except String P) (item : QueueItem U P) : (item.finish result).status.isActive = false := by
  unfold finish
  cases result with
  | ok path => rfl
  | error e =>
    dsimp only
    split <;> rfl

@[simp] theorem withAuth_active (item : QueueItem U P) : item.withAuth.status.isActive = item.status.isActive := by
  unfold withAuth
  split
  next h => rw [h]; rfl
  next => rfl

@[simp] theorem relink_active (urls : List U) (item : QueueItem U P) : (item.relink urls).status.isActive = item.status.isActive := by
  unfold relink
  split
  · rfl
  · cases item.status <;> rfl

/-- New links are for what does not run. -/
theorem relink_urls_of_active {urls : List U} {item : QueueItem U P} (h : item.status.isActive = true) :
    (item.relink urls).urls = item.urls := by rw [relink, if_pos h]

/-- What is started keeps the links that kept their secret. -/
theorem start_urls_subset {isRedacted : U → Bool} (item : QueueItem U P) : (item.start isRedacted).2.urls ⊆ item.urls := by
  unfold start
  split
  · exact List.Subset.refl _
  · dsimp only
    split
    · exact List.filter_sublist.subset
    · exact List.filter_sublist.subset

/-- Marking it started says whether it was: it runs then, and else it runs if it ran. -/
theorem start_active {isRedacted : U → Bool} (item : QueueItem U P) :
    (item.start isRedacted).2.status.isActive = ((item.start isRedacted).1 || item.status.isActive) := by
  unfold start
  split
  next h => rw [h]; rfl
  next h =>
    dsimp only
    split
    · rw [Bool.eq_false_iff.mpr h]
      rfl
    · rfl

/-- What runs is not started again. -/
theorem start_of_active {isRedacted : U → Bool} {item : QueueItem U P} (h : item.status.isActive = true) :
    item.start isRedacted = (false, item) := by rw [start, if_pos h]

end QueueItem

namespace DownloadQueue

variable {U P : Type}

/-- Records that cancellation was requested for a running item. -/
def markPausing (q : DownloadQueue U P) (id : Nat) : Bool × DownloadQueue U P :=
  ((q.getItem id).any (·.status == .downloading), q.update id (·.pausing) QueueItem.pausing_id)

/-- Takes a running item's progress. Only a new target and notes are a change of the
queue. -/
def applySnapshot (q : DownloadQueue U P) [DecidableEq P] (id : Nat) (snapshot : Snapshot P) : DownloadQueue U P :=
  match q.getItem id with
  | none => q
  | some item =>
    let target := snapshot.targetPath.isSome && snapshot.targetPath != item.targetPath
    let changes := if snapshot.fromProbe then 0 else (if target then 1 else 0) + if snapshot.notes.isEmpty then 0 else 1
    { q.update id (·.progress snapshot) (QueueItem.progress_id snapshot) with revision := q.revision + changes }

def finish (q : DownloadQueue U P) (id : Nat) (result : Except String P) : DownloadQueue U P :=
  q.update id (·.finish result) (QueueItem.finish_id result)

/-- Forgets progress before a fresh restart. -/
def resetProgress (q : DownloadQueue U P) (id : Nat) : DownloadQueue U P :=
  q.update id (fun item => { item with speedBytesPerSec := 0 }) fun _ => rfl

/-- Gives an item its Authorization header; one waiting for it becomes paused. Returns
false if it is missing or running. -/
def provideAuth (q : DownloadQueue U P) (id : Nat) : Bool × DownloadQueue U P :=
  ((q.getItem id).any (!·.status.isActive), q.update id (·.withAuth) QueueItem.withAuth_id)

/-- Gives a stopped item new links to the same file. Returns false if it is missing or
running. -/
def relink (q : DownloadQueue U P) (id : Nat) (urls : List U) : Bool × DownloadQueue U P :=
  ((q.getItem id).any (!·.status.isActive), q.update id (·.relink urls) (QueueItem.relink_id urls))

/-- The user's choice of when it starts. -/
def setPriority (q : DownloadQueue U P) (id : Nat) (priority : Priority) : DownloadQueue U P :=
  q.update id (fun item => { item with priority := priority }) fun _ => rfl

/-- The items `keep` holds of are kept. -/
def retain (q : DownloadQueue U P) (keep : QueueItem U P → Bool) : DownloadQueue U P where
  items := q.items.filter keep
  nextId := q.nextId
  revision := q.revision + 1
  ids_nodup := q.ids_nodup.sublist (List.filter_sublist.map _)
  ids_below := fun item h => q.ids_below item (List.mem_of_mem_filter h)

def clearCompleted (q : DownloadQueue U P) : DownloadQueue U P := q.retain (·.status != .completed)

/-- Removes every item whose engine is not running. -/
def clearInactive (q : DownloadQueue U P) : DownloadQueue U P := q.retain (·.status.isActive)

/-! ## What runs -/

/-- A download that runs. -/
def Active (q : DownloadQueue U P) (id : Nat) : Prop := ∃ item ∈ q.items, item.id = id ∧ item.status.isActive = true

/-- What runs in `after` ran in `q`, with no link it did not have. -/
def RanIn (q after : DownloadQueue U P) : Prop :=
  ∀ item ∈ after.items, item.status.isActive = true →
    ∃ before ∈ q.items, before.id = item.id ∧ before.status.isActive = true ∧ item.urls ⊆ before.urls

/-- What runs goes on, and nothing else runs. -/
structure GoesOn (q after : DownloadQueue U P) : Prop where
  ran : RanIn q after
  runs : ∀ id, q.Active id → after.Active id

theorem GoesOn.active_iff {q after : DownloadQueue U P} (h : GoesOn q after) (id : Nat) : after.Active id ↔ q.Active id := by
  constructor
  · rintro ⟨item, hitem, rfl, hactive⟩
    obtain ⟨before, hbefore, hid, hran, -⟩ := h.ran item hitem hactive
    exact ⟨before, hbefore, hid, hran⟩
  · exact h.runs id

theorem GoesOn.refl (q : DownloadQueue U P) : GoesOn q q where
  ran item hitem hactive := ⟨item, hitem, rfl, hactive, List.Subset.refl _⟩
  runs _ h := h

theorem GoesOn.trans {q mid after : DownloadQueue U P} (h : GoesOn q mid) (h' : GoesOn mid after) : GoesOn q after where
  ran := by
    intro item hitem hactive
    obtain ⟨m, hm, hid, hran, hurls⟩ := h'.ran item hitem hactive
    obtain ⟨before, hbefore, hid', hran', hurls'⟩ := h.ran m hm hran
    exact ⟨before, hbefore, hid'.trans hid, hran', List.Subset.trans hurls hurls'⟩
  runs id hid := h'.runs id (h.runs id hid)

theorem mem_update {q : DownloadQueue U P} {id : Nat} {f : QueueItem U P → QueueItem U P} {hf : ∀ item, (f item).id = item.id}
    {item : QueueItem U P} :
    item ∈ (q.update id f hf).items ↔ ∃ before ∈ q.items, item = if before.id = id then f before else before := by
  rw [update, List.mem_map]
  exact exists_congr fun before => and_congr_right fun _ => eq_comm

/-- A change of an item that leaves whether it runs, and gives what runs no link. -/
theorem goesOn_update {q : DownloadQueue U P} {id : Nat} (f : QueueItem U P → QueueItem U P) (hf : ∀ item, (f item).id = item.id)
    (hactive : ∀ item, (f item).status.isActive = item.status.isActive)
    (hurls : ∀ item, item.status.isActive = true → (f item).urls ⊆ item.urls) : GoesOn q (q.update id f hf) where
  ran := by
    intro item hitem hruns
    obtain ⟨before, hbefore, rfl⟩ := mem_update.mp hitem
    split at hruns
    next hid =>
      rw [hactive before] at hruns
      rw [if_pos hid]
      exact ⟨before, hbefore, (hf before).symm, hruns, hurls before hruns⟩
    next hid =>
      rw [if_neg hid]
      exact ⟨before, hbefore, rfl, hruns, List.Subset.refl _⟩
  runs := by
    rintro j ⟨before, hbefore, rfl, hruns⟩
    refine ⟨_, mem_update.mpr ⟨before, hbefore, rfl⟩, ?_, ?_⟩
    · split
      · exact hf before
      · rfl
    · split
      · rw [hactive before, hruns]
      · exact hruns

theorem goesOn_markPausing (q : DownloadQueue U P) (id : Nat) : GoesOn q (q.markPausing id).2 :=
  goesOn_update _ QueueItem.pausing_id QueueItem.pausing_active fun item _ => by rw [QueueItem.pausing_urls]; exact List.Subset.refl _

theorem goesOn_resetProgress (q : DownloadQueue U P) (id : Nat) : GoesOn q (q.resetProgress id) :=
  goesOn_update (fun item => { item with speedBytesPerSec := 0 }) (fun _ => rfl) (fun _ => rfl) fun _ _ => List.Subset.refl _

theorem goesOn_provideAuth (q : DownloadQueue U P) (id : Nat) : GoesOn q (q.provideAuth id).2 :=
  goesOn_update _ QueueItem.withAuth_id QueueItem.withAuth_active fun item _ => by rw [QueueItem.withAuth_urls]; exact List.Subset.refl _

theorem goesOn_relink (q : DownloadQueue U P) (id : Nat) (urls : List U) : GoesOn q (q.relink id urls).2 :=
  goesOn_update _ (QueueItem.relink_id urls) (QueueItem.relink_active urls) fun item hactive => by
    rw [QueueItem.relink_urls_of_active hactive]
    exact List.Subset.refl _

theorem goesOn_setPriority (q : DownloadQueue U P) (id : Nat) (priority : Priority) : GoesOn q (q.setPriority id priority) :=
  goesOn_update (fun item => { item with priority := priority }) (fun _ => rfl) (fun _ => rfl) fun _ _ => List.Subset.refl _

theorem goesOn_applySnapshot [DecidableEq P] (q : DownloadQueue U P) (id : Nat) (snapshot : Snapshot P) :
    GoesOn q (q.applySnapshot id snapshot) := by
  unfold applySnapshot
  split
  · exact GoesOn.refl q
  · have hsame := @goesOn_update U P q id _ (QueueItem.progress_id snapshot) (fun item => by rw [QueueItem.progress_status])
      fun item _ => by rw [QueueItem.progress_urls]; exact List.Subset.refl _
    exact ⟨hsame.ran, hsame.runs⟩

/-- What runs is not dropped where it is to be kept. -/
theorem goesOn_retain {q : DownloadQueue U P} {keep : QueueItem U P → Bool}
    (hkeep : ∀ item ∈ q.items, item.status.isActive = true → keep item = true) : GoesOn q (q.retain keep) where
  ran item hitem hactive := ⟨item, List.mem_of_mem_filter hitem, rfl, hactive, List.Subset.refl _⟩
  runs := by
    rintro j ⟨item, hitem, hid, hruns⟩
    exact ⟨item, List.mem_filter.mpr ⟨hitem, hkeep item hitem hruns⟩, hid, hruns⟩

theorem goesOn_clearCompleted (q : DownloadQueue U P) : GoesOn q q.clearCompleted := by
  refine goesOn_retain fun item _ hruns => ?_
  cases hs : item.status <;> simp_all [QueueItemStatus.isActive]

theorem goesOn_clearInactive (q : DownloadQueue U P) : GoesOn q q.clearInactive := goesOn_retain fun _ _ hruns => hruns

theorem goesOn_removeItem (q : DownloadQueue U P) (id : Nat) : GoesOn q (q.removeItem id).2 := by
  have hsame := @goesOn_retain U P q (fun item => item.id != id || item.status.isActive) fun item _ hruns => by
    rw [hruns, Bool.or_true]
  exact ⟨hsame.ran, hsame.runs⟩

/-- What is removed did not run. -/
theorem not_active_of_removed {q : DownloadQueue U P} {id : Nat} (h : (q.removeItem id).1 = true) : ¬q.Active id := by
  rintro ⟨item, hitem, hid, hactive⟩
  have hall : (q.items.filter fun item => item.id != id || item.status.isActive) = q.items := by
    rw [List.filter_eq_self]
    intro other hother
    rcases eq_or_ne other.id id with hsame | hne
    · rw [eq_of_id hother hitem (hsame.trans hid.symm), hactive, Bool.or_true]
    · rw [bne_iff_ne.mpr hne, Bool.true_or]
  rw [removeItem] at h
  dsimp only at h
  rw [hall, bne_self_eq_false] at h
  cases h

theorem goesOn_addItem (q : DownloadQueue U P) (urls : List U) : GoesOn q (q.addItem urls) where
  ran := by
    intro item hitem hruns
    rcases List.mem_append.mp hitem with hitem | hnew
    · exact ⟨item, hitem, rfl, hruns, List.Subset.refl _⟩
    · rw [List.mem_singleton.mp hnew] at hruns
      cases hruns
  runs := by
    rintro j ⟨item, hitem, hid, hruns⟩
    exact ⟨item, List.mem_append_left _ hitem, hid, hruns⟩

theorem goesOn_moveItem (q : DownloadQueue U P) (id index : Nat) : GoesOn q (q.moveItem id index).2 := by
  have hmem : ∀ item, item ∈ (q.moveItem id index).2.items ↔ item ∈ q.items := by
    intro item
    cases hitem : q.getItem id with
    | none =>
      unfold moveItem
      split
      · rfl
      next found hfound => rw [hitem] at hfound; cases hfound
    | some found =>
      rw [moveItem_items hitem index]
      exact (moved_perm hitem index).mem_iff
  constructor
  · intro item hitem hactive
    exact ⟨item, (hmem item).mp hitem, rfl, hactive, List.Subset.refl _⟩
  · rintro j ⟨item, hitem, hid, hruns⟩
    exact ⟨item, (hmem item).mpr hitem, hid, hruns⟩

theorem goesOn_downloadNext (q : DownloadQueue U P) (id : Nat) : GoesOn q (q.downloadNext id).2 := by
  unfold downloadNext
  split
  · exact (goesOn_moveItem q id _).trans (goesOn_update (fun item => { item with priority := min item.priority q.top })
      (fun _ => rfl) (fun _ => rfl) fun _ _ => List.Subset.refl _)
  · exact GoesOn.refl q

/-- A result that is taken ends that download and no other. -/
theorem active_finish (q : DownloadQueue U P) (id : Nat) (result : Except String P) (j : Nat) :
    (q.finish id result).Active j ↔ q.Active j ∧ j ≠ id := by
  constructor
  · rintro ⟨item, hitem, rfl, hruns⟩
    obtain ⟨before, hbefore, rfl⟩ := mem_update.mp hitem
    split at hruns
    next =>
      rw [QueueItem.finish_active] at hruns
      cases hruns
    next hid => exact ⟨⟨before, hbefore, by rw [if_neg hid], hruns⟩, by rwa [if_neg hid]⟩
  · rintro ⟨⟨before, hbefore, rfl, hruns⟩, hne⟩
    exact ⟨before, mem_update.mpr ⟨before, hbefore, (if_neg hne).symm⟩, rfl, hruns⟩

theorem ranIn_finish (q : DownloadQueue U P) (id : Nat) (result : Except String P) : RanIn q (q.finish id result) := by
  intro item hitem hruns
  obtain ⟨before, hbefore, rfl⟩ := mem_update.mp hitem
  split at hruns
  next =>
    rw [QueueItem.finish_active] at hruns
    cases hruns
  next hid =>
    rw [if_neg hid]
    exact ⟨before, hbefore, rfl, hruns, List.Subset.refl _⟩

section

variable {isRedacted : U → Bool}

/-- What runs is not started again. -/
theorem not_active_of_started {q : DownloadQueue U P} {id : Nat} (h : (q.markStarted isRedacted id).1 = true) : ¬q.Active id := by
  rintro ⟨item, hitem, hid, hruns⟩
  obtain ⟨found, hfound, hstarts⟩ := (Option.any_eq_true _ _).mp h
  obtain ⟨hmem, hsame⟩ := getItem_eq_some.mp hfound
  rw [eq_of_id hmem hitem (hsame.trans hid.symm), QueueItem.start_of_active hruns] at hstarts
  cases hstarts

/-- What is marked started came from what ran, or is the one started. -/
theorem ran_or_started {q : DownloadQueue U P} {id : Nat} {item : QueueItem U P} (hitem : item ∈ (q.markStarted isRedacted id).2.items)
    (hruns : item.status.isActive = true) :
    ∃ before ∈ q.items, before.id = item.id ∧ item.urls ⊆ before.urls ∧
      (before.status.isActive = true ∨ item.id = id ∧ (q.markStarted isRedacted id).1 = true) := by
  obtain ⟨before, hbefore, rfl⟩ := mem_markStarted.mp hitem
  refine ⟨before, hbefore, ?_⟩
  split at hruns
  next hid =>
    rw [QueueItem.start_active, Bool.or_eq_true] at hruns
    rw [if_pos hid, QueueItem.start_id]
    refine ⟨rfl, QueueItem.start_urls_subset before, ?_⟩
    rcases hruns with hstarted | hruns
    · refine .inr ⟨hid, ?_⟩
      rw [markStarted, getItem_eq_some.mpr ⟨hbefore, hid⟩]
      exact hstarted
    · exact .inl hruns
  next hid =>
    rw [if_neg hid]
    exact ⟨rfl, List.Subset.refl _, .inl hruns⟩

theorem active_markStarted_of_active {q : DownloadQueue U P} {j : Nat} (id : Nat) (h : q.Active j) :
    (q.markStarted isRedacted id).2.Active j := by
  obtain ⟨before, hbefore, rfl, hruns⟩ := h
  refine ⟨_, mem_markStarted.mpr ⟨before, hbefore, rfl⟩, ?_, ?_⟩
  · split
    · exact QueueItem.start_id before
    · rfl
  · split
    · rw [QueueItem.start_of_active hruns]
      exact hruns
    · exact hruns

theorem active_of_started {q : DownloadQueue U P} {id : Nat} (h : (q.markStarted isRedacted id).1 = true) :
    (q.markStarted isRedacted id).2.Active id := by
  obtain ⟨item, hitem, hstarts⟩ := (Option.any_eq_true _ _).mp h
  obtain ⟨hmem, hid⟩ := getItem_eq_some.mp hitem
  refine ⟨_, mem_markStarted.mpr ⟨item, hmem, rfl⟩, ?_, ?_⟩
  · rw [if_pos hid, QueueItem.start_id, hid]
  · rw [if_pos hid, QueueItem.start_active, hstarts, Bool.true_or]

/-- What is not started stays as it ran. -/
theorem goesOn_of_not_started {q : DownloadQueue U P} {id : Nat} (h : (q.markStarted isRedacted id).1 = false) :
    GoesOn q (q.markStarted isRedacted id).2 where
  ran := by
    intro item hitem hruns
    obtain ⟨before, hbefore, hid, hurls, hran | ⟨-, hstarted⟩⟩ := ran_or_started hitem hruns
    · exact ⟨before, hbefore, hid, hran, hurls⟩
    · rw [h] at hstarted
      cases hstarted
  runs _ hj := active_markStarted_of_active id hj

end

/-- No two downloads that run have a link in common. -/
def Apart (q : DownloadQueue U P) : Prop :=
  ∀ a ∈ q.items, ∀ b ∈ q.items, a.id ≠ b.id → a.status.isActive = true → b.status.isActive = true → ∀ url ∈ a.urls, url ∉ b.urls

theorem Apart.ranIn {q after : DownloadQueue U P} (h : q.Apart) (hran : RanIn q after) : after.Apart := by
  intro a ha b hb hne hactive hactive' url hurl hurl'
  obtain ⟨a₀, ha₀, hida, hrana, hsuba⟩ := hran a ha hactive
  obtain ⟨b₀, hb₀, hidb, hranb, hsubb⟩ := hran b hb hactive'
  exact h a₀ ha₀ b₀ hb₀ (by rwa [hida, hidb]) hrana hranb url (hsuba hurl) (hsubb hurl')

/-- What is started has no link of what runs. -/
theorem Apart.markStarted [DecidableEq U] [DecidableEq P] {isRedacted : U → Bool} {q : DownloadQueue U P} (h : q.Apart) {id : Nat}
    (hfree : q.activeConflict id = none) : (q.markStarted isRedacted id).2.Apart := by
  have hclear : ∀ a ∈ q.items, a.id = id → ∀ b ∈ q.items, b.id ≠ id → b.status.isActive = true → ∀ url ∈ a.urls, url ∉ b.urls := by
    rintro a ha rfl b hb hne hactive
    exact (QueueItem.conflictsWith_eq_false.mp ((activeConflict_eq_none ha).mp hfree b hb hne hactive)).1
  intro a ha b hb hne hactive hactive' url hurl hurl'
  obtain ⟨a₀, ha₀, hida, hsuba, hwhya⟩ := ran_or_started ha hactive
  obtain ⟨b₀, hb₀, hidb, hsubb, hwhyb⟩ := ran_or_started hb hactive'
  rcases hwhya with hrana | ⟨rfl, -⟩
  · rcases hwhyb with hranb | ⟨rfl, -⟩
    · exact h a₀ ha₀ b₀ hb₀ (by rwa [hida, hidb]) hrana hranb url (hsuba hurl) (hsubb hurl')
    · exact hclear b₀ hb₀ hidb a₀ ha₀ (by rwa [hida]) hrana url (hsubb hurl') (hsuba hurl)
  · rcases hwhyb with hranb | ⟨hsame, -⟩
    · exact hclear a₀ ha₀ hida b₀ hb₀ (by rw [hidb]; exact hne.symm) hranb url (hsuba hurl) (hsubb hurl')
    · exact hne hsame.symm

end DownloadQueue

end Hyperfetch.Queue
