import Hyperfetch.Gui.Engines
import Hyperfetch.Queue.Restart
import Hyperfetch.Weft.Outbox

/-!
# The saved queue (`update`, `on_exit`, `Saver`)

The window hands its queue to the saver's thread at the end of each frame in which the
revision changed, and once more as it closes. Its process may end at any moment, and
the next one starts from the file as it is then: a write replaces the file in one step
or fails.

Where the saver could not be started, and an item's options but for what is not saved
of them, are left out.
-/

namespace Hyperfetch.Gui

open Weft Queue DownloadQueue Function

variable {U P : Type}

/-! ## The window changes its queue through its operations -/

namespace App

section

variable [DecidableEq P]

/-- The queue is changed through its operations. -/
def Changes (app after : App U P) : Prop := Ops app.queue after.queue

theorem changes_of_eq {app after : App U P} (h : after.queue = app.queue) : Changes app after := by
  unfold Changes
  rw [h]
  exact .refl

theorem changes_of_op {app after : App U P} (h : Op app.queue after.queue) : Changes app after := .single h

theorem Changes.trans {app mid after : App U P} (h : Changes app mid) (h' : Changes mid after) : Changes app after :=
  Relation.ReflTransGen.trans h h'

theorem Changes.after {app mid after : App U P} (h : Changes mid after) (hsame : mid.queue = app.queue) : Changes app after :=
  (changes_of_eq hsame).trans h

theorem Changes.foldl {α : Type} {step : App U P → α → App U P} (hstep : ∀ app x, Changes app (step app x)) (xs : List α)
    (app : App U P) : Changes app (xs.foldl step app) := by
  induction xs generalizing app with
  | nil => exact .refl
  | cons x xs ih => exact (hstep app x).trans (ih (step app x))

theorem changes_pauseJob (app : App U P) (id : Nat) : Changes app (app.pauseJob id) := by
  unfold pauseJob
  split
  · exact .refl
  · exact changes_of_op (.update app.queue id _ QueueItem.pausing_id)

theorem changes_removeJob (app : App U P) (id : Nat) : Changes app (app.removeJob id) := changes_of_op (.removeItem app.queue id)

theorem changes_restartWith (app : App U P) (id : Nat) : Changes app (app.restartWith id) := by
  have htouch : Changes app { app with queue := app.queue.update id (fun item => item) fun _ => rfl } :=
    changes_of_op (.update app.queue id (fun item => item) fun _ => rfl)
  unfold restartWith
  dsimp only
  split
  · exact htouch.trans ((changes_pauseJob _ id).after rfl)
  · exact htouch

theorem changes_clearQueue (app : App U P) (completedOnly : Bool) : Changes app (app.clearQueue completedOnly) := by
  unfold clearQueue
  cases completedOnly <;> exact changes_of_op (.retain app.queue _)

theorem changes_drain (app : App U P) (id : Nat) : Changes app (app.drain id) := by
  unfold drain
  split
  · exact .refl
  · split
    · exact .refl
    next snapshot _ => exact changes_of_op (.applySnapshot app.queue id snapshot)

theorem changes_pauseAll (app : App U P) : Changes app app.pauseAll.2 :=
  (Changes.foldl changes_pauseJob _ { app with autoRunQueue := false, resuming := [] }).after rfl

variable [DecidableEq U] (isRedacted : U → Bool) (samePath : P → P → Bool)

theorem changes_startJob (app : App U P) (id : Nat) (fresh : Bool) : Changes app (app.startJob isRedacted samePath id fresh).2 := by
  have hmark : Ops app.queue (app.queue.markStarted isRedacted id).2 := .single (.update app.queue id _ QueueItem.start_id)
  unfold startJob
  dsimp only
  split
  · exact .refl
  · split
    · exact .refl
    · split
      · exact .refl
      · split
        · exact .refl
        · split
          · cases fresh
            · exact hmark
            · exact hmark.tail (.update _ id (fun item => { item with speedBytesPerSec := 0 }) fun _ => rfl)
          · exact hmark

theorem changes_discardJob (app : App U P) (id : Nat) : Changes app (app.discardJob samePath id) := by
  unfold discardJob
  split
  · exact .refl
  · split
    · exact .refl
    · split
      · exact .refl
      · split
        · exact .refl
        · exact changes_removeJob app id

theorem changes_startAdded (app : App U P) (id : Nat) : Changes app (app.startAdded isRedacted samePath id) := by
  unfold startAdded
  split
  · exact changes_of_op (.removeItem app.queue id)
  · exact changes_startJob isRedacted samePath app id false

theorem changes_resumeWithAuth (app : App U P) (id : Nat) : Changes app (app.resumeWithAuth isRedacted samePath id) := by
  have hauth : Changes app { app with queue := (app.queue.provideAuth id).2 } :=
    changes_of_op (.update app.queue id _ QueueItem.withAuth_id)
  unfold resumeWithAuth
  dsimp only
  split
  · exact hauth.trans (changes_startJob isRedacted samePath _ id false)
  · exact hauth

theorem changes_relinked (app : App U P) (id : Nat) (urls : List U) : Changes app (app.relinked isRedacted samePath id urls) := by
  have hlinks : Changes app { app with queue := (app.queue.relink id urls).2 } :=
    changes_of_op (.update app.queue id _ (QueueItem.relink_id urls))
  unfold relinked
  dsimp only
  split
  · exact hlinks.trans (changes_startJob isRedacted samePath _ id false)
  · exact hlinks

theorem changes_startWaiting (app : App U P) : Changes app (app.startWaiting isRedacted samePath) :=
  (Changes.foldl (fun app (x : Nat × Bool) => changes_startJob isRedacted samePath app x.1 x.2) _ { app with ffmpegWaiting := [] }).after rfl

theorem changes_resumeEach (places : Nat) (waiting : List Nat) (app : App U P) :
    Changes app (resumeEach isRedacted samePath places waiting app) := by
  induction waiting generalizing app with
  | nil => exact .refl
  | cons id rest ih =>
    unfold resumeEach
    split
    · refine Changes.trans ?_ (ih _)
      split
      · exact (changes_startJob isRedacted samePath _ id false).after rfl
      · exact .refl
    · exact .refl

theorem changes_startQueued (places : Nat) (app : App U P) : Changes app (startQueued isRedacted samePath places app).1 := by
  unfold startQueued
  exact @rounds_keep _ _ _ _ (fun s : App U P × List Nat => Changes app s.1)
    (fun s id hs _ => hs.trans (changes_startJob isRedacted samePath s.1 id false)) _ _ .refl

theorem changes_runScheduler (app : App U P) : Changes app (app.runScheduler isRedacted samePath) := by
  unfold runScheduler
  split
  · exact .refl
  · exact (changes_resumeEach isRedacted samePath _ _ app).trans (changes_startQueued isRedacted samePath _ _)

theorem changes_jobFinished (app : App U P) (id : Nat) (result : Except String P) :
    Changes app (app.jobFinished isRedacted samePath id result) := by
  have hfinish : ∀ app : App U P, Changes app { app with running := update app.running id none, queue := app.queue.finish id result } :=
    fun app => changes_of_op (.update app.queue id _ (QueueItem.finish_id result))
  have hsettled : Changes app { app.drain id with running := update (app.drain id).running id none, queue := (app.drain id).queue.finish id result } :=
    (changes_drain app id).trans (hfinish (app.drain id))
  unfold jobFinished
  dsimp only
  split
  · split
    · exact hsettled.trans ((changes_startJob isRedacted samePath _ id false).after rfl)
    · exact hsettled
  · exact hsettled

theorem changes_handleEvent (app : App U P) : Changes app (app.handleEvent isRedacted samePath) := by
  unfold handleEvent
  split
  · exact .refl
  next event later hevents =>
    refine @Changes.after _ _ _ app { app with events := later } _ ?_ rfl
    cases event with
    | jobFinished run id result => exact changes_jobFinished isRedacted samePath _ id result
    | discarded id done =>
      cases done
      · exact .refl
      · exact changes_removeJob _ id
    | relinked id urls taken =>
      cases taken
      · exact .refl
      · exact changes_relinked isRedacted samePath _ id urls

/-- Whatever is done changes the queue through its operations. -/
theorem changes_act (app : App U P) (action : Action U P) : Changes app (app.act isRedacted samePath action) := by
  cases action with
  | addItem urls => exact changes_of_op (.addItem app.queue urls)
  | startAdded id => exact changes_startAdded isRedacted samePath app id
  | startJob id fresh => exact changes_startJob isRedacted samePath app id fresh
  | pauseJob id => exact changes_pauseJob app id
  | restartWith id => exact changes_restartWith app id
  | resumeWithAuth id => exact changes_resumeWithAuth isRedacted samePath app id
  | removeJob id => exact changes_removeJob app id
  | clearQueue completedOnly => exact changes_clearQueue app completedOnly
  | discardJob id => exact changes_discardJob samePath app id
  | moveItem id index => exact changes_of_op (.moveItem app.queue id index)
  | downloadNext id =>
    show Ops app.queue (app.queue.downloadNext id).2
    unfold downloadNext
    split
    · exact .tail (.single (.moveItem app.queue id _)) (.update _ id (fun item => { item with priority := min item.priority app.queue.top }) fun _ => rfl)
    · exact .refl
  | setPriority id priority => exact changes_of_op (.update app.queue id (fun item => { item with priority := priority }) fun _ => rfl)
  | runScheduler => exact changes_runScheduler isRedacted samePath app
  | pauseAll => exact changes_pauseAll app
  | resumeAll => exact (changes_runScheduler isRedacted samePath _).after rfl
  | runSchedule due =>
    cases due with
    | none => exact .refl
    | some start =>
      cases start
      · exact changes_pauseAll app
      · exact (changes_runScheduler isRedacted samePath _).after rfl
  | answerFfmpeg install => exact (changes_startWaiting isRedacted samePath _).after rfl
  | ffmpegFound found =>
    cases found
    · exact .refl
    · exact (changes_startWaiting isRedacted samePath _).after rfl
  | drain id => exact changes_drain app id
  | handleEvent => exact changes_handleEvent isRedacted samePath app
  | taskSnapshot run snapshot =>
    refine changes_of_eq ?_
    show (if app.engines.any (·.1 == run) then { app with slots := update app.slots run (some snapshot) } else app).queue = app.queue
    split <;> rfl
  | taskEnds run result =>
    refine changes_of_eq ?_
    show (app.taskEnds run result).queue = app.queue
    unfold taskEnds
    split <;> rfl
  | discardEnds id done =>
    refine changes_of_eq ?_
    show (if app.discarding.contains id then
      { app with discarding := app.discarding.erase id, events := app.events ++ [.discarded id done] } else app).queue = app.queue
    split <;> rfl
  | linkChecked | repair | settings | options | close => exact .refl

end

/-- On exit a download that runs is asked to stop. -/
def stopJob (app : App U P) (id : Nat) : App U P :=
  match app.running id with
  | none => app
  | some run =>
    { app with
      running := update app.running id none
      queue := (app.queue.markPausing id).2
      cancelling := update app.cancelling run true }

/-- Every download that runs is asked to stop. -/
def stopJobs (app : App U P) : App U P := (app.queue.items.map (·.id)).foldl stopJob app

/-- How a download that was stopped ended. -/
def recordEnd (app : App U P) : Event U P → App U P
  | .jobFinished _ id result => { app with queue := app.queue.finish id result }
  | _ => app

/-- The results sent so far. -/
def recordEnds (app : App U P) : App U P := app.events.foldl recordEnd { app with events := [] }

theorem changes_stopJobs [DecidableEq P] (app : App U P) : Changes app app.stopJobs := by
  refine Changes.foldl (fun app id => ?_) _ app
  unfold stopJob
  split
  · exact .refl
  · exact changes_of_op (.update app.queue id _ QueueItem.pausing_id)

end App

/-! ## Sessions -/

inductive Phase
  | up
  /-- It waits for the downloads to stop. -/
  | stopping
  | closed
  deriving DecidableEq, Repr

/-- A window, and what it has saved. -/
structure Session (U P : Type) where
  app : App U P
  /-- What its items have that is not saved. -/
  unsaved : Unsaved := {}
  /-- The revision last handed to the saver. -/
  queueSaved : Nat
  saver : Outbox (DownloadQueue U P × Unsaved) := {}
  phase : Phase := .up
  /-- The file it opened with. -/
  opened : Option (DownloadQueue U P)
  /-- The queue it opened with. -/
  loaded : DownloadQueue U P

namespace Session

variable (redactUrl : U → U) (redactText : String → String)

/-- The file: what the last write that went through made of it. -/
def file (s : Session U P) : Option (DownloadQueue U P) :=
  (s.saver.stored.map fun copy => copy.1.save redactUrl redactText copy.2) <|> s.opened

/-- The queue as it is. -/
def copy (s : Session U P) : DownloadQueue U P × Unsaved := (s.app.queue, s.unsaved)

/-- The end of a frame. -/
def frame (s : Session U P) : Session U P :=
  if s.app.queue.revision != s.queueSaved then
    { s with queueSaved := s.app.queue.revision, saver := s.saver.send s.copy }
  else s

/-- A task, and not the window, acts. -/
def ofTask : App.Action U P → Bool
  | .taskSnapshot _ _ | .taskEnds _ _ | .discardEnds _ _ | .linkChecked _ _ _ => true
  | _ => false

/-- A window opened on `file`, or with no queue where that cannot be read. -/
structure Opens (file : Option (DownloadQueue U P)) (readable : Bool) (s : Session U P) : Prop where
  queue : s.app.queue = s.loaded
  loaded : s.loaded = if readable then load redactUrl redactText file else new
  running : s.app.running = fun _ => none
  engines : s.app.engines = []
  events : s.app.events = []
  queueSaved : s.queueSaved = s.loaded.revision
  saver : s.saver = {}
  phase : s.phase = .up
  opened : s.opened = file

/-! ## What the file has -/

/-- A frame ends with its queue handed over. -/
theorem frame_saved (s : Session U P) : s.frame.queueSaved = s.frame.app.queue.revision := by
  unfold frame
  split
  · rfl
  next h => exact (by simpa using h : s.app.queue.revision = s.queueSaved).symm

/-- What was sent last is what the queue was when its revision was last saved. -/
structure Kept (s : Session U P) : Prop where
  order : s.saver.InOrder
  unsent : s.saver.sent = [] → s.phase ≠ .closed ∧ s.queueSaved = s.loaded.revision ∧ Since s.loaded s.app.queue
  sent : s.phase ≠ .closed → ∀ last, s.saver.sent.getLast? = some last →
    s.queueSaved = last.1.revision ∧ Since last.1 s.app.queue ∧ (s.app.queue.revision = last.1.revision → s.unsaved = last.2)
  closed : s.phase = .closed → s.saver.sent.getLast? = some s.copy

theorem Kept.changed {s : Session U P} (h : Kept s) (hphase : s.phase ≠ .closed) {app : App U P} (hsince : Since s.app.queue app.queue)
    {unsaved : Unsaved} (hunsaved : app.queue.revision = s.app.queue.revision → unsaved = s.unsaved) {phase : Phase}
    (hphase' : phase ≠ .closed) : Kept { s with app := app, unsaved := unsaved, phase := phase } where
  order := h.order
  unsent hnone := ⟨hphase', (h.unsent hnone).2.1, (h.unsent hnone).2.2.trans hsince⟩
  sent := by
    intro _ last hlast
    obtain ⟨hsaved, hfrom, hsame⟩ := h.sent hphase last hlast
    refine ⟨hsaved, hfrom.trans hsince, fun heq => ?_⟩
    have hle := hfrom.1
    have hle' := hsince.1
    have heq : app.queue.revision = last.1.revision := heq
    exact (hunsaved (by omega)).trans (hsame (by omega))
  closed hclosed := absurd hclosed hphase'

/-- The thread's work sends nothing. -/
theorem Kept.worked {s : Session U P} (h : Kept s) {saver : Outbox (DownloadQueue U P × Unsaved)} (horder : saver.InOrder)
    (hsent : saver.sent = s.saver.sent) : Kept { s with saver := saver } where
  order := horder
  unsent hnone := h.unsent (hsent ▸ hnone)
  sent hphase last hlast := h.sent hphase last (hsent ▸ hlast)
  closed hclosed := (congrArg List.getLast? hsent).trans (h.closed hclosed)

theorem Kept.frame {s : Session U P} (h : Kept s) (hphase : s.phase ≠ .closed) : Kept s.frame := by
  unfold Session.frame
  split
  · refine ⟨h.order.send s.copy, fun hnone => absurd hnone (List.concat_ne_nil _ _), ?_, fun hclosed => absurd hclosed hphase⟩
    intro _ last hlast
    obtain rfl := Option.some.inj ((List.getLast?_concat).symm.trans hlast)
    exact ⟨rfl, Since.refl _, fun _ => rfl⟩
  · exact h

theorem Opens.kept {file : Option (DownloadQueue U P)} {readable : Bool} {s : Session U P} (h : Opens redactUrl redactText file readable s) :
    Kept s where
  order := by
    rw [h.saver]
    exact Outbox.inOrder_empty
  unsent _ := by
    rw [h.phase, h.queue]
    exact ⟨nofun, h.queueSaved, Since.refl _⟩
  sent := by
    intro _ last hlast
    rw [h.saver] at hlast
    cases hlast
  closed hclosed := by
    rw [h.phase] at hclosed
    cases hclosed

/-- Once the thread has done its work the file is the queue as it was saved, but for its progress. -/
theorem Kept.file {s : Session U P} (h : Kept s) (hidle : s.saver.Idle) (hwell : s.saver.Well)
    (hsaved : s.phase = .closed ∨ s.queueSaved = s.app.queue.revision) (hsent : s.saver.sent ≠ []) :
    s.file redactUrl redactText = some (s.app.queue.save redactUrl redactText s.unsaved) := by
  have hstored := h.order.stored hidle hwell
  obtain ⟨last, hlast⟩ := Option.ne_none_iff_exists'.mp (mt List.getLast?_eq_none_iff.mp hsent)
  have hsame : last.1.save redactUrl redactText last.2 = s.app.queue.save redactUrl redactText s.unsaved := by
    by_cases hphase : s.phase = .closed
    · have hclosed : some last = some s.copy := hlast.symm.trans (h.closed hphase)
      rw [Option.some.inj hclosed]
      rfl
    · obtain ⟨hrevision, hsince, hunsaved⟩ := h.sent hphase last hlast
      have heq : s.app.queue.revision = last.1.revision := (hsaved.resolve_left hphase).symm.trans hrevision
      rw [hunsaved heq]
      exact save_congr redactUrl redactText _ (hsince.2 heq).symm
  rw [Session.file, hstored, hlast]
  exact congrArg some hsame

/-- Nothing runs in a window just opened. -/
theorem Opens.appOpened {file : Option (DownloadQueue U P)} {readable : Bool} {s : Session U P}
    (h : Opens redactUrl redactText file readable s) : App.Opened s.app where
  queue id := by
    rw [h.queue, h.loaded]
    split
    · exact not_active_load redactUrl redactText file id
    · exact not_active_load redactUrl redactText none id
  running := h.running
  engines := h.engines
  events := h.events

/-! ## The runs -/

variable [DecidableEq U] [DecidableEq P] (isRedacted : U → Bool) (samePath : P → P → Bool)

inductive Step : Session U P → Session U P → Prop
  /-- What the options of an item have is changed with a change of the queue. -/
  | act {s : Session U P} (hup : s.phase = .up) (action : App.Action U P) (unsaved : Unsaved)
      (hunsaved : (s.app.act isRedacted samePath action).queue.revision = s.app.queue.revision → unsaved = s.unsaved) :
      Step s { s with app := s.app.act isRedacted samePath action, unsaved := unsaved }
  | frame {s : Session U P} (hup : s.phase = .up) : Step s s.frame
  | exit {s : Session U P} (hup : s.phase = .up) : Step s { s with app := s.app.stopJobs, phase := .stopping }
  | task {s : Session U P} (hstopping : s.phase = .stopping) (action : App.Action U P) (htask : ofTask action = true) :
      Step s { s with app := s.app.act isRedacted samePath action }
  | exited {s : Session U P} (hstopping : s.phase = .stopping) :
      Step s { s with app := s.app.recordEnds, saver := s.saver.send (s.app.recordEnds.queue, s.unsaved), phase := .closed }
  | take (s : Session U P) : Step s { s with saver := s.saver.take }
  | write (s : Session U P) (ok : Bool) : Step s { s with saver := s.saver.write ok }
  /-- The process ends, in whatever state, and another is started. -/
  | reopen (s : Session U P) (readable : Bool) {s' : Session U P} (h : Opens redactUrl redactText (s.file redactUrl redactText) readable s') :
      Step s s'

/-- One process after the other. -/
def system : TSys (Session U P) where
  init s := ∃ file readable, Opens redactUrl redactText file readable s
  step := Step redactUrl redactText isRedacted samePath

theorem Step.kept {s s' : Session U P} (h : Kept s) (hstep : Step redactUrl redactText isRedacted samePath s s') : Kept s' := by
  cases hstep with
  | act hup action unsaved hunsaved =>
    have hphase : s.phase ≠ .closed := by rw [hup]; nofun
    exact h.changed hphase (App.changes_act isRedacted samePath s.app action).since hunsaved hphase
  | frame hup => exact h.frame (by rw [hup]; nofun)
  | exit hup => exact h.changed (by rw [hup]; nofun) (App.changes_stopJobs s.app).since (fun _ => rfl) nofun
  | task hstopping action htask =>
    have hphase : s.phase ≠ .closed := by rw [hstopping]; nofun
    exact h.changed hphase (App.changes_act isRedacted samePath s.app action).since (fun _ => rfl) hphase
  | exited hstopping =>
    refine ⟨h.order.send _, fun hnone => absurd hnone (List.concat_ne_nil _ _), fun hphase => absurd rfl hphase, fun _ => ?_⟩
    exact List.getLast?_concat
  | take => exact h.worked h.order.take (Outbox.sent_take s.saver)
  | write ok => exact h.worked (h.order.write ok) (Outbox.sent_write s.saver ok)
  | reopen readable hopens => exact hopens.kept redactUrl redactText

theorem inductive_kept : (system redactUrl redactText isRedacted samePath).Inductive (Kept : Session U P → Prop) where
  init := fun _ ⟨_, _, h⟩ => h.kept redactUrl redactText
  step _ _ h hstep := hstep.kept redactUrl redactText isRedacted samePath h

variable {redactUrl redactText isRedacted samePath}

/-- One download is added to an empty queue. -/
def oneAdded : Session Nat Nat where
  app := { queue := new.addItem [7] }
  queueSaved := 1
  saver := { sent := [(new.addItem [7], {})], written := [((new.addItem [7], {}), true)] }
  opened := none
  loaded := new

theorem reachable_oneAdded : (system id id (fun _ : Nat => false) fun _ _ : Nat => false).Reachable oneAdded := by
  have hopen : (system id id (fun _ : Nat => false) fun _ _ : Nat => false).Reachable
      { app := { queue := new }, queueSaved := 0, opened := none, loaded := new } :=
    .init ⟨none, true, rfl, rfl, rfl, rfl, rfl, rfl, rfl, rfl, rfl⟩
  exact (((hopen.step (.act rfl (.addItem [7]) {} fun _ => rfl)).step (.frame rfl)).step (.take _)).step (.write _ true)

/-- The next process has every download, as it is after a restart. -/
theorem reopened_items {s s' : Session U P} (h : (system redactUrl redactText isRedacted samePath).Reachable s) (hidle : s.saver.Idle)
    (hwell : s.saver.Well) (hsaved : s.phase = .closed ∨ s.queueSaved = s.app.queue.revision) (hsent : s.saver.sent ≠ [])
    (hopens : Opens redactUrl redactText (s.file redactUrl redactText) true s') :
    s'.app.queue.items = s.app.queue.items.map (·.restarted redactUrl redactText s.unsaved) ∧
      s'.app.queue.nextId = s.app.queue.nextId ∧ App.Owned s'.app := by
  have hkept := (inductive_kept redactUrl redactText isRedacted samePath).invariant s h
  have hqueue : s'.app.queue = load redactUrl redactText (some (s.app.queue.save redactUrl redactText s.unsaved)) := by
    rw [← hkept.file redactUrl redactText hidle hwell hsaved hsent, hopens.queue, hopens.loaded, if_pos rfl]
  refine ⟨?_, ?_, hopens.appOpened.owned⟩
  · rw [hqueue, load_save_items]
  · rw [hqueue]
    exact save_nextId redactUrl redactText s.unsaved s.app.queue

/-- The process after that one. -/
def reopenedOne : Session Nat Nat where
  app := { queue := load id id (oneAdded.file id id) }
  queueSaved := (load id id (oneAdded.file id id)).revision
  opened := oneAdded.file id id
  loaded := load id id (oneAdded.file id id)

theorem reopened_items_added :
    reopenedOne.app.queue.items = [{ id := 1, urls := [7] }] ∧ reopenedOne.app.queue.nextId = 2 ∧ App.Owned reopenedOne.app :=
  reopened_items reachable_oneAdded ⟨rfl, rfl⟩ (fun _ hlast => Option.mem_some_iff.mp hlast ▸ rfl) (.inr rfl) (by decide)
    ⟨rfl, rfl, rfl, rfl, rfl, rfl, rfl, rfl, rfl⟩

end Session

end Hyperfetch.Gui
