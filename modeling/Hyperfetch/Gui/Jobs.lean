import Hyperfetch.Queue.Operations
import Hyperfetch.Weft.TSys
import Mathlib.Logic.Function.Basic

/-!
# The window and its engines (`main.rs`)

The window starts an engine for a download as a task of its own, holds the handles of
the run in the download's view, and takes what the tasks send it one event after the
other. A task goes on while the window does anything else: it leaves its latest
snapshot in a slot, and sends its result at its end. Each of the window's actions is one
step, so is each of a task's.

Runs are told apart by a number, which the code's handles are without. A link checked
anew (`Relinked`) comes at any time, as the extension may send one.

Parameters: whether a link was saved without its secret, and whether two paths are of
one file. Whether a download goes to yt-dlp is a part of the state, as its options are.
What the window shows, and what it does when the queue is done, is left out.
-/

namespace Hyperfetch.Gui

open Queue Function

/-- What the tasks send (`AppEvent`). -/
inductive Event (U P : Type)
  | jobFinished (run id : Nat) (result : Except String P)
  | discarded (id : Nat) (done : Bool)
  | relinked (id : Nat) (urls : List U) (taken : Bool)

structure App (U P : Type) where
  queue : DownloadQueue U P
  /-- The run whose handles a download's view has. -/
  running : Nat → Option Nat := fun _ => none
  /-- The tasks that go on: the run, and its download. -/
  engines : List (Nat × Nat) := []
  events : List (Event U P) := []
  /-- A run's latest snapshot, not taken yet. -/
  slots : Nat → Option (Snapshot P) := fun _ => none
  /-- The runs asked to stop. -/
  cancelling : Nat → Bool := fun _ => false
  nextRun : Nat := 0
  /-- The downloads whose leftovers are being deleted. -/
  discarding : List Nat := []
  autoRunQueue : Bool := true
  maxConcurrent : Nat := 3
  closing : Bool := false
  installFfmpeg : Option Bool := none
  ffmpegFound : Option Bool := none
  /-- Waiting for the answer about ffmpeg, and whether from zero. -/
  ffmpegWaiting : List (Nat × Bool) := []
  /-- The downloads that go to yt-dlp. -/
  media : Nat → Bool := fun _ => false
  resuming : List Nat := []
  schedulePaused : List Nat := []
  restarting : Nat → Bool := fun _ => false
  /-- The final path of the file being repaired. -/
  repair : Option P := none

namespace App

variable {U P : Type} [DecidableEq U] [DecidableEq P] (isRedacted : U → Bool) (samePath : P → P → Bool)

def waitsForFfmpegAnswer (app : App U P) (id : Nat) : Bool :=
  app.installFfmpeg.isNone && app.ffmpegFound != some true && (app.queue.getItem id).isSome && app.media id

/-- The download's file is being repaired. -/
def underRepair (app : App U P) (id : Nat) : Bool :=
  app.repair.any fun target => (app.queue.getItem id).any fun item => item.targetPath.any fun path =>
    path == target || samePath path target

/-- The handles of a new run, put in the download's view. -/
def spawn (app : App U P) (id : Nat) : App U P :=
  { app with
    running := update app.running id (some app.nextRun)
    engines := (app.nextRun, id) :: app.engines
    slots := update app.slots app.nextRun none
    nextRun := app.nextRun + 1 }

/-- Starts download `id`, from zero where `fresh`. Returns whether it did. -/
def startJob (app : App U P) (id : Nat) (fresh : Bool) : Bool × App U P :=
  if app.waitsForFfmpegAnswer id then
    (false, { app with ffmpegWaiting := app.ffmpegWaiting.filter (·.1 != id) ++ [(id, fresh)] })
  else if (app.queue.activeConflict id).isSome then (false, app)
  else if app.underRepair samePath id then (false, app)
  else if (app.queue.getItem id).isNone then (false, app)
  else
    let (started, queue) := app.queue.markStarted isRedacted id
    if started then
      (true, { app with queue := if fresh then queue.resetProgress id else queue }.spawn id)
    else (false, { app with queue := queue })

/-- Asks a running download to stop. -/
def pauseJob (app : App U P) (id : Nat) : App U P :=
  match app.running id with
  | none => app
  | some run =>
    let (asked, queue) := app.queue.markPausing id
    { app with
      queue := queue
      cancelling := if asked then update app.cancelling run true else app.cancelling }

/-- Starts a running download again with other options, once it has paused. -/
def restartWith (app : App U P) (id : Nat) : App U P :=
  let app := { app with queue := app.queue.update id (fun item => item) fun _ => rfl }
  if (app.queue.getItem id).any (·.status == .downloading) then
    { app with restarting := update app.restarting id true }.pauseJob id
  else app

/-- Removes a stopped download from the list. -/
def removeJob (app : App U P) (id : Nat) : App U P :=
  let (removed, queue) := app.queue.removeItem id
  { app with
    queue := queue
    running := if removed then update app.running id none else app.running }

/-- Clears completed downloads, or every one that is not running. -/
def clearQueue (app : App U P) (completedOnly : Bool) : App U P :=
  let queue := if completedOnly then app.queue.clearCompleted else app.queue.clearInactive
  { app with
    queue := queue
    running := fun id => if (queue.getItem id).isSome then app.running id else none }

/-- Deletes the leftovers of a stopped download, then removes it from the list. -/
def discardJob (app : App U P) (id : Nat) : App U P :=
  if (app.queue.activeConflict id).isSome then app
  else if app.underRepair samePath id then app
  else
    match (app.queue.getItem id).filter (!·.status.isActive) with
    | none => app
    | some item => if item.targetPath.isSome then { app with discarding := id :: app.discarding } else app.removeJob id

/-- A file that is already downloading is shown instead of being started twice. -/
def startAdded (app : App U P) (id : Nat) : App U P :=
  if (app.queue.activeConflict id).isSome then { app with queue := (app.queue.removeItem id).2 }
  else (app.startJob isRedacted samePath id false).2

def resumeWithAuth (app : App U P) (id : Nat) : App U P :=
  let (given, queue) := app.queue.provideAuth id
  let app := { app with queue := queue }
  if given then (app.startJob isRedacted samePath id false).2 else app

/-- Starts the downloads that waited for the answer about ffmpeg. -/
def startWaiting (app : App U P) : App U P :=
  app.ffmpegWaiting.foldl (fun app (id, fresh) => (app.startJob isRedacted samePath id fresh).2) { app with ffmpegWaiting := [] }

/-- A running download's latest snapshot is taken. -/
def drain (app : App U P) (id : Nat) : App U P :=
  match app.running id with
  | none => app
  | some run =>
    match app.slots run with
    | none => app
    | some snapshot => { app with queue := app.queue.applySnapshot id snapshot, slots := update app.slots run none }

def jobFinished (app : App U P) (id : Nat) (result : Except String P) : App U P :=
  -- the last snapshot may not have been drawn yet
  let app := app.drain id
  let app := { app with running := update app.running id none, queue := app.queue.finish id result }
  if app.restarting id then
    let app := { app with restarting := update app.restarting id false }
    if (app.queue.getItem id).any (·.status == .paused) then (app.startJob isRedacted samePath id false).2 else app
  else app

def relinked (app : App U P) (id : Nat) (urls : List U) : App U P :=
  let (taken, queue) := app.queue.relink id urls
  let app := { app with queue := queue }
  if taken then (app.startJob isRedacted samePath id false).2 else app

/-- Takes the first event sent. -/
def handleEvent (app : App U P) : App U P :=
  match app.events with
  | [] => app
  | event :: later =>
    let app := { app with events := later }
    match event with
    | .jobFinished _ id result => app.jobFinished isRedacted samePath id result
    | .discarded id done => if done then app.removeJob id else app
    | .relinked id urls taken => if taken then app.relinked isRedacted samePath id urls else app

/-! ## The scheduler -/

/-- Starts the paused downloads waiting to resume, first come first, while there is room. -/
def resumeEach (places : Nat) : List Nat → App U P → App U P
  | [], app => { app with resuming := [] }
  | id :: rest, app =>
    if app.queue.mayStart places then
      let app := { app with resuming := rest }
      resumeEach places rest
        (if (app.queue.getItem id).any (·.status == .paused) then (app.startJob isRedacted samePath id false).2 else app)
    else { app with resuming := id :: rest }

/-- One round: what does not start is held back from the next. -/
def startNext (s : App U P × List Nat) (id : Nat) : App U P × List Nat :=
  let (started, app) := s.1.startJob isRedacted samePath id false
  (app, if started then s.2 else id :: s.2)

/-- Starts queued downloads while there is room. -/
def startQueued (places : Nat) (app : App U P) : App U P × List Nat :=
  (Weft.rounds (fun s : App U P × List Nat => s.1.queue.nextToStart places s.2.contains) (startNext isRedacted samePath)
    app.queue.items.length (app, [])).2

def runScheduler (app : App U P) : App U P :=
  if !app.autoRunQueue || app.closing then app
  else
    let places := max app.maxConcurrent 1
    (startQueued isRedacted samePath places (resumeEach isRedacted samePath places app.resuming app)).1

/-- Stops the queue and pauses every running download; the ones it paused, and those that
were waiting to resume. -/
def pauseAll (app : App U P) : List Nat × App U P :=
  let running := (app.queue.items.filter (·.status == .downloading)).map (·.id)
  (app.resuming ++ running, running.foldl pauseJob { app with autoRunQueue := false, resuming := [] })

/-- Starts the queue and resumes every paused download. -/
def resumeAll (app : App U P) : App U P :=
  let paused := (app.queue.items.filter (·.status == .paused)).map (·.id)
  { app with autoRunQueue := true, resuming := app.resuming ++ paused }.runScheduler isRedacted samePath

/-- Starts or pauses the queue as the schedule says. -/
def runSchedule (app : App U P) (due : Option Bool) : App U P :=
  match due with
  | none => app
  | some true =>
    { app with autoRunQueue := true, resuming := app.resuming ++ app.schedulePaused, schedulePaused := [] }.runScheduler
      isRedacted samePath
  | some false =>
    let (paused, app) := app.pauseAll
    { app with schedulePaused := app.schedulePaused ++ paused }

/-! ## The steps -/

/-- The task of a run sends its result and is over. -/
def taskEnds (app : App U P) (run : Nat) (result : Except String P) : App U P :=
  match app.engines.find? (·.1 == run) with
  | none => app
  | some task =>
    { app with
      engines := app.engines.erase task
      events := app.events ++ [.jobFinished task.1 task.2 result] }

/-- What the user, a timer or a task does. -/
inductive Action (U P : Type)
  | addItem (urls : List U)
  | startAdded (id : Nat)
  | startJob (id : Nat) (fresh : Bool)
  | pauseJob (id : Nat)
  | restartWith (id : Nat)
  | resumeWithAuth (id : Nat)
  | removeJob (id : Nat)
  | clearQueue (completedOnly : Bool)
  | discardJob (id : Nat)
  | moveItem (id index : Nat)
  | downloadNext (id : Nat)
  | setPriority (id : Nat) (priority : Priority)
  | runScheduler
  | pauseAll
  | resumeAll
  | runSchedule (due : Option Bool)
  | answerFfmpeg (install : Bool)
  | ffmpegFound (found : Bool)
  | drain (id : Nat)
  | handleEvent
  | taskSnapshot (run : Nat) (snapshot : Snapshot P)
  | taskEnds (run : Nat) (result : Except String P)
  | discardEnds (id : Nat) (done : Bool)
  | linkChecked (id : Nat) (urls : List U) (taken : Bool)
  | repair (target : Option P)
  | settings (autoRunQueue : Bool) (maxConcurrent : Nat)
  | options (id : Nat) (media : Bool)
  | close (closing : Bool)

def act (app : App U P) : Action U P → App U P
  | .addItem urls => { app with queue := app.queue.addItem urls }
  | .startAdded id => app.startAdded isRedacted samePath id
  | .startJob id fresh => (app.startJob isRedacted samePath id fresh).2
  | .pauseJob id => app.pauseJob id
  | .restartWith id => app.restartWith id
  | .resumeWithAuth id => app.resumeWithAuth isRedacted samePath id
  | .removeJob id => app.removeJob id
  | .clearQueue completedOnly => app.clearQueue completedOnly
  | .discardJob id => app.discardJob samePath id
  | .moveItem id index => { app with queue := (app.queue.moveItem id index).2 }
  | .downloadNext id => { app with queue := (app.queue.downloadNext id).2 }
  | .setPriority id priority => { app with queue := app.queue.setPriority id priority }
  | .runScheduler => app.runScheduler isRedacted samePath
  | .pauseAll => app.pauseAll.2
  | .resumeAll => app.resumeAll isRedacted samePath
  | .runSchedule due => app.runSchedule isRedacted samePath due
  | .answerFfmpeg install => { app with installFfmpeg := some install }.startWaiting isRedacted samePath
  | .ffmpegFound found =>
    let app := { app with ffmpegFound := some found }
    if found then app.startWaiting isRedacted samePath else app
  | .drain id => app.drain id
  | .handleEvent => app.handleEvent isRedacted samePath
  | .taskSnapshot run snapshot =>
    if app.engines.any (·.1 == run) then { app with slots := update app.slots run (some snapshot) } else app
  | .taskEnds run result => app.taskEnds run result
  | .discardEnds id done =>
    if app.discarding.contains id then
      { app with discarding := app.discarding.erase id, events := app.events ++ [.discarded id done] }
    else app
  | .linkChecked id urls taken => { app with events := app.events ++ [.relinked id urls taken] }
  | .repair target => { app with repair := target }
  | .settings autoRunQueue maxConcurrent => { app with autoRunQueue := autoRunQueue, maxConcurrent := maxConcurrent }
  | .options id media => { app with media := update app.media id media }
  | .close closing => { app with closing := closing }

/-- The window just opened: the queue as it was saved, in which nothing runs. -/
structure Opened (app : App U P) : Prop where
  queue : ∀ id, ¬app.queue.Active id
  running : app.running = fun _ => none
  engines : app.engines = []
  events : app.events = []

/-- The window's runs. -/
def system : Weft.TSys (App U P) where
  init := Opened
  step app after := ∃ action, after = app.act isRedacted samePath action

end App

end Hyperfetch.Gui
