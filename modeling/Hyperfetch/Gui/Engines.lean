import Hyperfetch.Gui.Jobs
import Hyperfetch.Weft.Leases

/-!
# One engine for each download that runs

A run is outstanding from its start until the window takes its result: while its task
goes on, and then while its result waits. `Owned` says that the downloads that run are
those with an outstanding run, one each, that a download's view holds the handles of its
own, and that no two of them have a link in common. Every action keeps it, and every
action but taking its result leaves an outstanding run where it is (`Onward`).
-/

namespace Hyperfetch.Gui

open Queue Weft Function DownloadQueue

variable {U P : Type}

/-- The run whose result this is, and its download. -/
def Event.run? : Event U P → Option (Nat × Nat)
  | .jobFinished run id _ => some (run, id)
  | _ => none

namespace App

/-- The runs whose result has not been taken. -/
def outstanding (app : App U P) : List (Nat × Nat) := app.engines ++ app.events.filterMap Event.run?

structure Owned (app : App U P) : Prop where
  leases : Leases app.running app.outstanding
  below : ∀ task ∈ app.outstanding, task.1 < app.nextRun
  active : ∀ id, app.queue.Active id ↔ (app.running id).isSome = true
  apart : app.queue.Apart

/-- No run is started or taken. -/
structure SameRuns (app after : App U P) : Prop where
  running : after.running = app.running
  outstanding : app.outstanding.Perm after.outstanding
  nextRun : after.nextRun = app.nextRun
  queue : GoesOn app.queue after.queue

/-- The runs outstanding after it are ones that were, or new. -/
structure Later (app after : App U P) : Prop where
  nextRun : app.nextRun ≤ after.nextRun
  fresh : ∀ task ∈ after.outstanding, task ∈ app.outstanding ∨ app.nextRun ≤ task.1

/-- The runs are in order after it too, and none that was outstanding has been taken. -/
def Onward (app after : App U P) : Prop :=
  Owned app → Owned after ∧ Later app after ∧ ∀ id run, app.running id = some run → after.running id = some run

theorem Later.refl (app : App U P) : Later app app := ⟨Nat.le_refl _, fun _ htask => .inl htask⟩

theorem Later.trans {app mid after : App U P} (h : Later app mid) (h' : Later mid after) : Later app after where
  nextRun := Nat.le_trans h.nextRun h'.nextRun
  fresh := by
    intro task htask
    rcases h'.fresh task htask with hmid | hnew
    · exact h.fresh task hmid
    · exact .inr (Nat.le_trans h.nextRun hnew)

theorem Onward.refl (app : App U P) : Onward app app := fun h => ⟨h, Later.refl app, fun _ _ hrun => hrun⟩

theorem Onward.trans {app mid after : App U P} (h : Onward app mid) (h' : Onward mid after) : Onward app after := by
  intro howned
  obtain ⟨hmid, hlater, hkept⟩ := h howned
  obtain ⟨hafter, hlater', hkept'⟩ := h' hmid
  exact ⟨hafter, hlater.trans hlater', fun id run hrun => hkept' id run (hkept id run hrun)⟩

theorem Onward.foldl {α : Type} {step : App U P → α → App U P} (hstep : ∀ app x, Onward app (step app x)) (xs : List α)
    (app : App U P) : Onward app (xs.foldl step app) := by
  induction xs generalizing app with
  | nil => exact Onward.refl app
  | cons x xs ih => exact (hstep app x).trans (ih (step app x))

theorem SameRuns.refl (app : App U P) : SameRuns app app := ⟨rfl, List.Perm.refl _, rfl, GoesOn.refl _⟩

theorem SameRuns.onward {app after : App U P} (h : SameRuns app after) : Onward app after := by
  intro howned
  refine ⟨⟨?_, ?_, ?_, ?_⟩, ⟨h.nextRun.ge, ?_⟩, ?_⟩
  · rw [h.running]
    exact howned.leases.perm h.outstanding
  · intro task htask
    rw [h.nextRun]
    exact howned.below task (h.outstanding.mem_iff.mpr htask)
  · intro id
    rw [h.queue.active_iff, h.running]
    exact howned.active id
  · exact howned.apart.ranIn h.queue.ran
  · exact fun task htask => .inl (h.outstanding.mem_iff.mpr htask)
  · intro id run hrun
    rw [h.running, hrun]

/-! ## Stopping -/

theorem sameRuns_queue (app : App U P) {queue : DownloadQueue U P} (h : GoesOn app.queue queue) :
    SameRuns app { app with queue := queue } := ⟨rfl, List.Perm.refl _, rfl, h⟩

theorem sameRuns_pauseJob (app : App U P) (id : Nat) : SameRuns app (app.pauseJob id) := by
  unfold pauseJob
  split
  · exact SameRuns.refl app
  · exact ⟨rfl, List.Perm.refl _, rfl, goesOn_markPausing app.queue id⟩

theorem onward_clearQueue (app : App U P) (completedOnly : Bool) : Onward app (app.clearQueue completedOnly) := by
  intro howned
  have hgoes : GoesOn app.queue (if completedOnly then app.queue.clearCompleted else app.queue.clearInactive) := by
    split
    · exact goesOn_clearCompleted _
    · exact goesOn_clearInactive _
  have hrunning : (app.clearQueue completedOnly).running = app.running := by
    funext id
    show (if ((if completedOnly then app.queue.clearCompleted else app.queue.clearInactive).getItem id).isSome then app.running id else none) = _
    cases hrun : app.running id with
    | none => rw [ite_self]
    | some run =>
      -- what runs is not cleared
      obtain ⟨item, hitem, rfl, -⟩ := hgoes.runs id ((howned.active id).mpr (by rw [hrun]; rfl))
      rw [getItem_of_mem hitem]
      rfl
  have hsame : SameRuns app (app.clearQueue completedOnly) := ⟨hrunning, List.Perm.refl _, rfl, hgoes⟩
  exact hsame.onward howned

theorem onward_restartWith (app : App U P) (id : Nat) : Onward app (app.restartWith id) := by
  have htouch := @goesOn_update U P app.queue id (fun item => item) (fun _ => rfl) (fun _ => rfl) fun _ _ => List.Subset.refl _
  unfold restartWith
  dsimp only
  split
  · refine (sameRuns_queue app htouch).onward.trans (Onward.trans (SameRuns.onward ?_) (sameRuns_pauseJob _ id).onward)
    exact ⟨rfl, List.Perm.refl _, rfl, GoesOn.refl _⟩
  · exact (sameRuns_queue app htouch).onward

theorem onward_removeJob (app : App U P) (id : Nat) : Onward app (app.removeJob id) := by
  intro howned
  have hrunning : (if (app.queue.removeItem id).1 then update app.running id none else app.running) = app.running := by
    split
    next hremoved =>
      have hnone : app.running id = none := by
        rw [← Option.not_isSome_iff_eq_none, ← howned.active]
        exact not_active_of_removed hremoved
      rw [← hnone, update_eq_self]
    next => rfl
  have hsame : SameRuns app (app.removeJob id) := ⟨hrunning, List.Perm.refl _, rfl, goesOn_removeItem app.queue id⟩
  exact hsame.onward howned

theorem onward_pauseAll (app : App U P) : Onward app app.pauseAll.2 := by
  have hstop : Onward app { app with autoRunQueue := false, resuming := [] } :=
    SameRuns.onward ⟨rfl, List.Perm.refl _, rfl, GoesOn.refl _⟩
  exact hstop.trans (Onward.foldl (fun app id => (sameRuns_pauseJob app id).onward) _ _)

/-- What is sent that is no result leaves the runs. -/
theorem sameRuns_send (app : App U P) {event : Event U P} (h : event.run? = none) {discarding : List Nat} :
    SameRuns app { app with discarding := discarding, events := app.events ++ [event] } where
  running := rfl
  outstanding := by
    show List.Perm _ (app.engines ++ (app.events ++ [event]).filterMap Event.run?)
    rw [List.filterMap_append, List.filterMap_cons_none h, List.filterMap_nil, List.append_nil]
    rfl
  nextRun := rfl
  queue := GoesOn.refl _

/-- A task that ends sends its result: its run is outstanding still. -/
theorem sameRuns_taskEnds (app : App U P) (run : Nat) (result : Except String P) : SameRuns app (app.taskEnds run result) := by
  unfold taskEnds
  split
  · exact SameRuns.refl app
  next task hfound =>
    refine ⟨rfl, ?_, rfl, GoesOn.refl _⟩
    show List.Perm (app.engines ++ _) (app.engines.erase task ++ (app.events ++ [_]).filterMap Event.run?)
    rw [List.filterMap_append]
    have hmem := List.mem_of_find?_eq_some hfound
    have hperm := (List.perm_cons_erase hmem).append_right (app.events.filterMap Event.run?)
    refine hperm.trans ?_
    show List.Perm _ (app.engines.erase task ++ (app.events.filterMap Event.run? ++ [task]))
    rw [List.cons_append, ← List.append_assoc]
    exact (List.perm_append_singleton task _).symm

/-- The result of a run is taken: its download's run is over, and no other. -/
theorem owned_finished {app : App U P} {run id : Nat} {result : Except String P} {later : List (Event U P)} (howned : Owned app)
    (hevents : app.events = .jobFinished run id result :: later) {queue : DownloadQueue U P} (hqueue : GoesOn app.queue queue)
    {slots : Nat → Option (Snapshot P)} {restarting : Nat → Bool} :
    Owned ({ app with
        queue := queue.finish id result
        running := update app.running id none
        events := later
        slots := slots
        restarting := restarting } : App U P) := by
  have hout : app.outstanding.Perm ((run, id) :: (app.engines ++ later.filterMap Event.run?)) := by
    rw [outstanding, hevents]
    exact List.perm_middle
  have hleases := howned.leases.perm hout
  refine ⟨hleases.back, ?_, ?_, ?_⟩
  · intro task htask
    exact howned.below task (hout.mem_iff.mpr (List.mem_cons_of_mem _ htask))
  · intro j
    show (queue.finish id result).Active j ↔ (update app.running id none j).isSome = true
    rw [active_finish, hqueue.active_iff, howned.active]
    rcases eq_or_ne j id with rfl | hne
    · simp
    · simp [hne]
  · exact (howned.apart.ranIn hqueue.ran).ranIn (ranIn_finish queue id result)

/-! ## Starting -/

theorem spawn_outstanding (app : App U P) (id : Nat) : (app.spawn id).outstanding = (app.nextRun, id) :: app.outstanding := rfl

/-- A download that did not run has a run now. -/
theorem onward_spawn {app : App U P} {queue : DownloadQueue U P} {id : Nat} (hfree : ¬app.queue.Active id) (hapart : Apart queue)
    (hactive : ∀ j, queue.Active j ↔ app.queue.Active j ∨ j = id) : Onward app ({ app with queue := queue }.spawn id) := by
  intro howned
  have hnone : app.running id = none := by
    rw [← Option.not_isSome_iff_eq_none, ← howned.active]
    exact hfree
  have hnew : app.nextRun ∉ app.outstanding.map Prod.fst := by
    intro hmem
    obtain ⟨task, htask, heq⟩ := List.mem_map.mp hmem
    have hbelow := howned.below task htask
    rw [heq] at hbelow
    exact Nat.lt_irrefl _ hbelow
  refine ⟨⟨?_, ?_, ?_, hapart⟩, ⟨Nat.le_succ _, ?_⟩, ?_⟩
  · exact howned.leases.issue hnone hnew
  · intro task htask
    rw [spawn_outstanding, List.mem_cons] at htask
    rcases htask with rfl | htask
    · exact Nat.lt_succ_self _
    · exact Nat.lt_succ_of_lt (howned.below task htask)
  · intro j
    show queue.Active j ↔ (update app.running id (some app.nextRun) j).isSome = true
    rw [hactive, howned.active]
    rcases eq_or_ne j id with rfl | hne
    · simp
    · simp [hne]
  · intro task htask
    rw [spawn_outstanding, List.mem_cons] at htask
    rcases htask with rfl | htask
    · exact .inr (Nat.le_refl _)
    · exact .inl htask
  · intro j run hrun
    show update app.running id (some app.nextRun) j = some run
    rw [update_of_ne, hrun]
    rintro rfl
    rw [hnone] at hrun
    cases hrun

variable [DecidableEq U] [DecidableEq P] {isRedacted : U → Bool} {samePath : P → P → Bool}

/-- What `start_job` can do: nothing to the runs, or start one for a download that does
not run and is in conflict with none that does. -/
theorem startJob_cases (app : App U P) (id : Nat) (fresh : Bool) :
    (app.startJob isRedacted samePath id fresh).1 = false ∧ SameRuns app (app.startJob isRedacted samePath id fresh).2 ∨
      (app.startJob isRedacted samePath id fresh).1 = true ∧ app.queue.activeConflict id = none ∧
        (app.queue.markStarted isRedacted id).1 = true ∧
        (app.startJob isRedacted samePath id fresh).2 =
          ({ app with
              queue := if fresh then (app.queue.markStarted isRedacted id).2.resetProgress id
                else (app.queue.markStarted isRedacted id).2 } : App U P).spawn id := by
  unfold startJob
  split
  · exact .inl ⟨rfl, ⟨rfl, List.Perm.refl _, rfl, GoesOn.refl _⟩⟩
  · split
    · exact .inl ⟨rfl, SameRuns.refl app⟩
    next hfree =>
      split
      · exact .inl ⟨rfl, SameRuns.refl app⟩
      · split
        · exact .inl ⟨rfl, SameRuns.refl app⟩
        · dsimp only
          cases hstarted : (app.queue.markStarted isRedacted id).1 with
          | false => exact .inl ⟨rfl, ⟨rfl, List.Perm.refl _, rfl, goesOn_of_not_started hstarted⟩⟩
          | true => exact .inr ⟨rfl, Option.not_isSome_iff_eq_none.mp hfree, rfl, rfl⟩

theorem onward_startJob (app : App U P) (id : Nat) (fresh : Bool) : Onward app (app.startJob isRedacted samePath id fresh).2 := by
  rcases startJob_cases app id fresh with ⟨-, hsame⟩ | ⟨-, hfree, hstarted, heq⟩
  · exact hsame.onward
  · rw [heq]
    intro howned
    have hmark : ∀ j, (app.queue.markStarted isRedacted id).2.Active j ↔ app.queue.Active j ∨ j = id := by
      intro j
      constructor
      · rintro ⟨item, hitem, rfl, hactive⟩
        obtain ⟨before, hbefore, hid, -, hran | ⟨hsame, -⟩⟩ := ran_or_started hitem hactive
        · exact .inl ⟨before, hbefore, hid, hran⟩
        · exact .inr hsame
      · rintro (hran | rfl)
        · exact active_markStarted_of_active id hran
        · exact active_of_started hstarted
    have hapart : Apart (app.queue.markStarted isRedacted id).2 := howned.apart.markStarted hfree
    have hgoes : GoesOn (app.queue.markStarted isRedacted id).2
        (if fresh then (app.queue.markStarted isRedacted id).2.resetProgress id else (app.queue.markStarted isRedacted id).2) := by
      split
      · exact goesOn_resetProgress _ id
      · exact GoesOn.refl _
    exact onward_spawn (not_active_of_started hstarted) (hapart.ranIn hgoes.ran)
      (fun j => (hgoes.active_iff j).trans (hmark j)) howned

/-! ## Starting again and removing -/

omit [DecidableEq U] in
theorem sameRuns_drain (app : App U P) (id : Nat) : SameRuns app (app.drain id) := by
  unfold drain
  split
  · exact SameRuns.refl app
  · split
    · exact SameRuns.refl app
    · exact ⟨rfl, List.Perm.refl _, rfl, goesOn_applySnapshot app.queue id _⟩

theorem onward_discardJob (app : App U P) (id : Nat) : Onward app (app.discardJob samePath id) := by
  unfold discardJob
  split
  · exact Onward.refl app
  · split
    · exact Onward.refl app
    · split
      · exact Onward.refl app
      · split
        · exact SameRuns.onward ⟨rfl, List.Perm.refl _, rfl, GoesOn.refl _⟩
        · exact onward_removeJob app id

theorem onward_startAdded (app : App U P) (id : Nat) : Onward app (app.startAdded isRedacted samePath id) := by
  unfold startAdded
  split
  · exact (sameRuns_queue app (goesOn_removeItem app.queue id)).onward
  · exact onward_startJob app id false

theorem onward_resumeWithAuth (app : App U P) (id : Nat) : Onward app (app.resumeWithAuth isRedacted samePath id) := by
  have hgiven := (sameRuns_queue app (goesOn_provideAuth app.queue id)).onward
  unfold resumeWithAuth
  dsimp only
  split
  · exact hgiven.trans (onward_startJob _ id false)
  · exact hgiven

theorem onward_relinked (app : App U P) (id : Nat) (urls : List U) : Onward app (app.relinked isRedacted samePath id urls) := by
  have htaken := (sameRuns_queue app (goesOn_relink app.queue id urls)).onward
  unfold relinked
  dsimp only
  split
  · exact htaken.trans (onward_startJob _ id false)
  · exact htaken

theorem onward_startWaiting (app : App U P) : Onward app (app.startWaiting isRedacted samePath) := by
  have hnone : Onward app { app with ffmpegWaiting := [] } := SameRuns.onward ⟨rfl, List.Perm.refl _, rfl, GoesOn.refl _⟩
  exact hnone.trans (Onward.foldl (fun app w => onward_startJob app w.1 w.2) app.ffmpegWaiting _)

/-! ## The scheduler -/

theorem onward_resumeEach (places : Nat) (waiting : List Nat) (app : App U P) :
    Onward app (resumeEach isRedacted samePath places waiting app) := by
  induction waiting generalizing app with
  | nil => exact SameRuns.onward ⟨rfl, List.Perm.refl _, rfl, GoesOn.refl _⟩
  | cons id rest ih =>
    have hset : ∀ left, Onward app { app with resuming := left } := fun left =>
      SameRuns.onward ⟨rfl, List.Perm.refl _, rfl, GoesOn.refl _⟩
    rw [resumeEach]
    split
    · dsimp only
      split
      · exact (hset rest).trans ((onward_startJob _ id false).trans (ih _))
      · exact (hset rest).trans (ih _)
    · exact hset _

theorem onward_startQueued (places : Nat) (app : App U P) : Onward app (startQueued isRedacted samePath places app).1 := by
  have hfold : ∀ (ids : List Nat) (s : App U P × List Nat), Onward s.1 (ids.foldl (startNext isRedacted samePath) s).1 := by
    intro ids
    induction ids with
    | nil => exact fun s => Onward.refl s.1
    | cons id ids ih =>
      intro s
      have hone : Onward s.1 (startNext isRedacted samePath s id).1 := onward_startJob s.1 id false
      exact hone.trans (ih _)
  rw [startQueued, rounds_foldl]
  exact hfold _ (app, [])

theorem onward_runScheduler (app : App U P) : Onward app (app.runScheduler isRedacted samePath) := by
  unfold runScheduler
  split
  · exact Onward.refl app
  · exact (onward_resumeEach _ app.resuming app).trans (onward_startQueued _ _)

theorem onward_resumeAll (app : App U P) : Onward app (app.resumeAll isRedacted samePath) := by
  have hset : ∀ waiting, Onward app { app with autoRunQueue := true, resuming := waiting } := fun waiting =>
    SameRuns.onward ⟨rfl, List.Perm.refl _, rfl, GoesOn.refl _⟩
  exact (hset _).trans (onward_runScheduler _)

theorem onward_runSchedule (app : App U P) (due : Option Bool) : Onward app (app.runSchedule isRedacted samePath due) := by
  unfold runSchedule
  split
  · exact Onward.refl app
  · have hset : Onward app
        { app with autoRunQueue := true, resuming := app.resuming ++ app.schedulePaused, schedulePaused := [] } :=
      SameRuns.onward ⟨rfl, List.Perm.refl _, rfl, GoesOn.refl _⟩
    exact hset.trans (onward_runScheduler _)
  · exact (onward_pauseAll app).trans (SameRuns.onward ⟨rfl, List.Perm.refl _, rfl, GoesOn.refl _⟩)

/-! ## Results -/

omit [DecidableEq U] in
theorem drain_eq (app : App U P) (id : Nat) :
    ∃ queue slots, GoesOn app.queue queue ∧ app.drain id = { app with queue := queue, slots := slots } := by
  unfold drain
  split
  · exact ⟨app.queue, app.slots, GoesOn.refl _, rfl⟩
  · split
    · exact ⟨app.queue, app.slots, GoesOn.refl _, rfl⟩
    · exact ⟨_, _, goesOn_applySnapshot app.queue id _, rfl⟩

variable (isRedacted samePath) in
/-- Taking a result: the runs are in order after it, the one taken is over, and every
other stays. -/
theorem owned_taken {app : App U P} {run id : Nat} {result : Except String P} {later : List (Event U P)} (howned : Owned app)
    (hevents : app.events = .jobFinished run id result :: later) :
    Owned (app.handleEvent isRedacted samePath) ∧ Later app (app.handleEvent isRedacted samePath) ∧
      (run, id) ∉ (app.handleEvent isRedacted samePath).outstanding ∧
      ∀ j r, j ≠ id → app.running j = some r → (app.handleEvent isRedacted samePath).running j = some r := by
  obtain ⟨queue, slots, hqueue, hdrain⟩ := drain_eq { app with events := later } id
  have hout : app.outstanding.Perm ((run, id) :: (app.engines ++ later.filterMap Event.run?)) := by
    rw [outstanding, hevents]
    exact List.perm_middle
  have hover : (run, id) ∉ app.engines ++ later.filterMap Event.run? :=
    fun hmem => (List.nodup_cons.mp (howned.leases.perm hout).once).1 (List.mem_map_of_mem hmem)
  have hrun : run < app.nextRun := howned.below (run, id) (hout.mem_iff.mpr List.mem_cons_self)
  have hstill : ∀ task ∈ app.engines ++ later.filterMap Event.run?, task ∈ app.outstanding :=
    fun task htask => hout.mem_iff.mpr (List.mem_cons_of_mem _ htask)
  have hkept : ∀ j r, j ≠ id → app.running j = some r → Function.update app.running id none j = some r := by
    intro j r hne hr
    rw [update_of_ne hne, hr]
  unfold handleEvent
  rw [hevents]
  dsimp only
  unfold jobFinished
  rw [hdrain]
  dsimp only
  split
  · -- it was to start again
    have hdone := @owned_finished U P app run id result later howned hevents queue hqueue slots (Function.update app.restarting id false)
    split
    · obtain ⟨hafter, hlater, hgoes⟩ := onward_startJob _ id false hdone
      refine ⟨hafter, ⟨hlater.nextRun, fun task htask => ?_⟩, fun hmem => ?_, fun j r hne hr => hgoes j r (hkept j r hne hr)⟩
      · exact (hlater.fresh task htask).imp_left (hstill task)
      · rcases hlater.fresh _ hmem with hmem | hnew
        · exact hover hmem
        · exact Nat.not_le_of_lt hrun hnew
    · exact ⟨hdone, ⟨Nat.le_refl _, fun task htask => .inl (hstill task htask)⟩, hover, hkept⟩
  · exact ⟨owned_finished howned hevents hqueue, ⟨Nat.le_refl _, fun task htask => .inl (hstill task htask)⟩, hover, hkept⟩

/-- What else is sent leaves the runs. -/
theorem onward_handleEvent {app : App U P} (h : ∀ run id result later, app.events ≠ .jobFinished run id result :: later) :
    Onward app (app.handleEvent isRedacted samePath) := by
  have htake : ∀ event later, app.events = event :: later → event.run? = none → SameRuns app { app with events := later } := by
    intro event later hevents hrun
    refine ⟨rfl, ?_, rfl, GoesOn.refl _⟩
    show List.Perm (app.engines ++ app.events.filterMap Event.run?) (app.engines ++ later.filterMap Event.run?)
    rw [hevents, List.filterMap_cons_none hrun]
  unfold handleEvent
  split
  · exact Onward.refl app
  next event later hevents =>
    dsimp only
    split
    next run id result => exact absurd hevents (h run id result later)
    next id done =>
      have hsame := htake _ later hevents rfl
      split
      · exact hsame.onward.trans (onward_removeJob _ id)
      · exact hsame.onward
    next id urls taken =>
      have hsame := htake _ later hevents rfl
      split
      · exact hsame.onward.trans (onward_relinked _ id urls)
      · exact hsame.onward

/-! ## Every action -/

variable (isRedacted samePath) in
/-- An action leaves the runs that are outstanding, or takes a result. -/
theorem act_cases (app : App U P) (action : Action U P) :
    Onward app (app.act isRedacted samePath action) ∨
      action = .handleEvent ∧ ∃ run id result later, app.events = .jobFinished run id result :: later := by
  have hset : ∀ after : App U P, after.running = app.running → after.outstanding = app.outstanding → after.nextRun = app.nextRun →
      after.queue = app.queue → Onward app after := by
    intro after hrunning hout hnext hqueue
    refine SameRuns.onward ⟨hrunning, ?_, hnext, ?_⟩
    · rw [hout]
    · rw [hqueue]
      exact GoesOn.refl _
  cases action with
  | addItem urls => exact .inl (sameRuns_queue app (goesOn_addItem app.queue urls)).onward
  | startAdded id => exact .inl (onward_startAdded app id)
  | startJob id fresh => exact .inl (onward_startJob app id fresh)
  | pauseJob id => exact .inl (sameRuns_pauseJob app id).onward
  | restartWith id => exact .inl (onward_restartWith app id)
  | resumeWithAuth id => exact .inl (onward_resumeWithAuth app id)
  | removeJob id => exact .inl (onward_removeJob app id)
  | clearQueue completedOnly => exact .inl (onward_clearQueue app completedOnly)
  | discardJob id => exact .inl (onward_discardJob app id)
  | moveItem id index => exact .inl (sameRuns_queue app (goesOn_moveItem app.queue id index)).onward
  | downloadNext id => exact .inl (sameRuns_queue app (goesOn_downloadNext app.queue id)).onward
  | setPriority id priority => exact .inl (sameRuns_queue app (goesOn_setPriority app.queue id priority)).onward
  | runScheduler => exact .inl (onward_runScheduler app)
  | pauseAll => exact .inl (onward_pauseAll app)
  | resumeAll => exact .inl (onward_resumeAll app)
  | runSchedule due => exact .inl (onward_runSchedule app due)
  | answerFfmpeg install => exact .inl ((hset { app with installFfmpeg := some install } rfl rfl rfl rfl).trans (onward_startWaiting _))
  | ffmpegFound found =>
    left
    unfold act
    dsimp only
    split
    · exact (hset { app with ffmpegFound := some found } rfl rfl rfl rfl).trans (onward_startWaiting _)
    · exact hset _ rfl rfl rfl rfl
  | drain id => exact .inl (sameRuns_drain app id).onward
  | handleEvent =>
    by_cases h : ∃ run id result later, app.events = .jobFinished run id result :: later
    · exact .inr ⟨rfl, h⟩
    · exact .inl (onward_handleEvent fun run id result later hevents => h ⟨run, id, result, later, hevents⟩)
  | taskSnapshot run snapshot =>
    left
    unfold act
    dsimp only
    split
    · exact hset _ rfl rfl rfl rfl
    · exact Onward.refl app
  | taskEnds run result => exact .inl (sameRuns_taskEnds app run result).onward
  | discardEnds id done =>
    left
    unfold act
    dsimp only
    split
    · exact (sameRuns_send app rfl).onward
    · exact Onward.refl app
  | linkChecked id urls taken => exact .inl (sameRuns_send app rfl).onward
  | repair target => exact .inl (hset _ rfl rfl rfl rfl)
  | settings autoRunQueue maxConcurrent => exact .inl (hset _ rfl rfl rfl rfl)
  | options id media => exact .inl (hset _ rfl rfl rfl rfl)
  | close closing => exact .inl (hset _ rfl rfl rfl rfl)

variable (isRedacted samePath) in
theorem owned_act {app : App U P} (howned : Owned app) (action : Action U P) : Owned (app.act isRedacted samePath action) := by
  rcases act_cases isRedacted samePath app action with honward | ⟨rfl, run, id, result, later, hevents⟩
  · exact (honward howned).1
  · exact (owned_taken isRedacted samePath howned hevents).1

omit [DecidableEq U] [DecidableEq P] in
theorem Opened.owned {app : App U P} (h : Opened app) : Owned app := by
  have hout : app.outstanding = [] := by
    rw [outstanding, h.engines, h.events]
    rfl
  refine ⟨?_, ?_, ?_, ?_⟩
  · rw [hout, h.running]
    exact Leases.nil
  · intro task htask
    rw [hout] at htask
    exact absurd htask List.not_mem_nil
  · intro id
    rw [h.running]
    exact ⟨fun hactive => absurd hactive (h.queue id), fun hrun => absurd hrun Bool.false_ne_true⟩
  · intro a ha b hb hne hactive
    exact absurd ⟨a, ha, rfl, hactive⟩ (h.queue a.id)

theorem inductive_owned : (system isRedacted samePath).Inductive (Owned : App U P → Prop) where
  init _ h := h.owned
  step := by
    rintro app after howned ⟨action, rfl⟩
    exact owned_act isRedacted samePath howned action

end App

end Hyperfetch.Gui
