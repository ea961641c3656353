import Hyperfetch.Gui.Engines

/-!
# What holds in every run of the window

However the user, the timers and the tasks take turns: one engine for a download, none
on a link another has, and each run's result taken once.
-/

namespace Hyperfetch.Gui

open Queue Weft DownloadQueue

namespace App

variable {U P : Type}

/-- Each download that runs has one run, its view the handles of it, and the results
waiting are of the downloads' own runs. -/
structure OneEach (app : App U P) : Prop where
  runs : ∀ id, app.queue.Active id ↔ ∃ run, (run, id) ∈ app.outstanding
  handles : ∀ id run, app.running id = some run ↔ (run, id) ∈ app.outstanding
  once : (app.outstanding.map Prod.snd).Nodup
  own : ∀ run id result, Event.jobFinished run id result ∈ app.events → app.running id = some run ∧ app.queue.Active id

theorem Owned.active_iff {app : App U P} (h : Owned app) (id : Nat) : app.queue.Active id ↔ ∃ run, (run, id) ∈ app.outstanding := by
  rw [h.active, Option.isSome_iff_exists]
  exact exists_congr fun run => h.leases.held id run

theorem mem_outstanding_of_event {app : App U P} {run id : Nat} {result : Except String P}
    (h : Event.jobFinished run id result ∈ app.events) : (run, id) ∈ app.outstanding :=
  List.mem_append_right _ (List.mem_filterMap.mpr ⟨_, h, rfl⟩)

theorem Owned.oneEach {app : App U P} (h : Owned app) : OneEach app where
  runs := h.active_iff
  handles := h.leases.held
  once := h.leases.keys_nodup
  own := by
    intro run id result hevent
    have hout := mem_outstanding_of_event hevent
    exact ⟨(h.leases.held id run).mpr hout, (h.active_iff id).mpr ⟨run, hout⟩⟩

variable [DecidableEq U] [DecidableEq P] {isRedacted : U → Bool} {samePath : P → P → Bool}

theorem owned_of_reachable {app : App U P} (h : (system isRedacted samePath).Reachable app) : Owned app :=
  inductive_owned.invariant app h

def acts (isRedacted : U → Bool) (samePath : P → P → Bool) (app : App U P) (actions : List (Action U P)) : App U P :=
  actions.foldl (fun app action => app.act isRedacted samePath action) app

theorem reachable_acts {app : App U P} (h : (system isRedacted samePath).Reachable app) (actions : List (Action U P)) :
    (system isRedacted samePath).Reachable (app.acts isRedacted samePath actions) := by
  induction actions generalizing app with
  | nil => exact h
  | cons action rest ih => exact ih (h.step ⟨action, rfl⟩)

/-- The window opened on an empty queue, nothing saved without its secret. -/
def fresh : App Nat Nat := { queue := DownloadQueue.new }

theorem reachable_fresh (actions : List (Action Nat Nat)) :
    (system (fun _ => false) (fun _ _ => false)).Reachable (fresh.acts (fun _ => false) (fun _ _ => false) actions) :=
  reachable_acts (.init ⟨fun _ ⟨_, hitem, _⟩ => List.not_mem_nil hitem, rfl, rfl, rfl⟩) actions

theorem one_run_each {app : App U P} (h : (system isRedacted samePath).Reachable app) : OneEach app := (owned_of_reachable h).oneEach

/-- Two downloads started. -/
def two : App Nat Nat := fresh.acts (fun _ => false) (fun _ _ => false) [.addItem [7], .startAdded 1, .addItem [8], .startAdded 2]

theorem one_run_each_two : two.outstanding = [(1, 2), (0, 1)] ∧ OneEach two := ⟨by decide, one_run_each (reachable_fresh _)⟩

variable (isRedacted samePath) in
/-- One action: what was outstanding is, or its own result is taken and it is over. -/
theorem outstanding_act {app : App U P} (howned : Owned app) {run id : Nat} (hout : (run, id) ∈ app.outstanding) (action : Action U P) :
    (run, id) ∈ (app.act isRedacted samePath action).outstanding ∨
      (action = .handleEvent ∧ ∃ result later, app.events = .jobFinished run id result :: later) ∧
        (run, id) ∉ (app.act isRedacted samePath action).outstanding := by
  have hrun := (howned.leases.held id run).mpr hout
  rcases act_cases isRedacted samePath app action with honward | ⟨rfl, r, j, result, later, hevents⟩
  · obtain ⟨hafter, -, hkept⟩ := honward howned
    exact .inl ((hafter.leases.held id run).mp (hkept id run hrun))
  · obtain ⟨hafter, -, hover, hkept⟩ := owned_taken isRedacted samePath howned hevents
    by_cases hid : id = j
    · subst hid
      have hhead : (r, id) ∈ app.outstanding := mem_outstanding_of_event (hevents ▸ List.mem_cons_self)
      obtain rfl := howned.leases.unique hout hhead
      exact .inr ⟨⟨rfl, result, later, hevents⟩, hover⟩
    · exact .inl ((hafter.leases.held id run).mp (hkept id run hid hrun))

variable (isRedacted samePath) in
theorem later_act {app : App U P} (howned : Owned app) (action : Action U P) : Later app (app.act isRedacted samePath action) := by
  rcases act_cases isRedacted samePath app action with honward | ⟨rfl, r, j, result, later, hevents⟩
  · exact (honward howned).2.1
  · exact (owned_taken isRedacted samePath howned hevents).2.1

/-- A run that is over stays so. -/
theorem over_acts {app : App U P} (howned : Owned app) {task : Nat × Nat} (hrun : task.1 < app.nextRun) (hover : task ∉ app.outstanding)
    (actions : List (Action U P)) : task ∉ (app.acts isRedacted samePath actions).outstanding := by
  induction actions generalizing app with
  | nil => exact hover
  | cons action rest ih =>
    have hlater := later_act isRedacted samePath howned action
    refine ih (owned_act isRedacted samePath howned action) (Nat.lt_of_lt_of_le hrun hlater.nextRun) fun hmem => ?_
    rcases hlater.fresh task hmem with hmem | hnew
    · exact hover hmem
    · exact Nat.not_le_of_lt hrun hnew

/-- A run that is outstanding is so, and its download runs, until its own result is taken;
from then on it is over for good. -/
theorem result_taken_once {app : App U P} (h : (system isRedacted samePath).Reachable app) {run id : Nat}
    (hout : (run, id) ∈ app.outstanding) (actions : List (Action U P)) :
    ((run, id) ∈ (app.acts isRedacted samePath actions).outstanding ∧ (app.acts isRedacted samePath actions).queue.Active id) ∨
      ∃ before after result later, actions = before ++ .handleEvent :: after ∧
        (app.acts isRedacted samePath before).events = .jobFinished run id result :: later ∧
        (∀ first, first <+: before → (app.acts isRedacted samePath first).queue.Active id) ∧
        ∀ more, (run, id) ∉ (app.acts isRedacted samePath (before ++ .handleEvent :: more)).outstanding := by
  have howned := owned_of_reachable h
  have hactive : app.queue.Active id := (howned.active_iff id).mpr ⟨run, hout⟩
  induction actions generalizing app with
  | nil => exact .inl ⟨hout, hactive⟩
  | cons action rest ih =>
    have hnext := owned_act isRedacted samePath howned action
    rcases outstanding_act isRedacted samePath howned hout action with
      hkept | ⟨⟨rfl, result, later, hevents⟩, hover⟩
    · rcases ih (h.step ⟨action, rfl⟩) hkept hnext ((hnext.active_iff id).mpr ⟨run, hkept⟩) with
        hstill | ⟨before, after, result, later, rfl, hevents, hran, hover⟩
      · exact .inl hstill
      · refine .inr ⟨action :: before, after, result, later, rfl, hevents, ?_, hover⟩
        intro first hfirst
        cases first with
        | nil => exact hactive
        | cons a first =>
          obtain ⟨rfl, hrest⟩ := List.cons_prefix_cons.mp hfirst
          exact hran first hrest
    · refine .inr ⟨[], rest, result, later, rfl, hevents, ?_, ?_⟩
      · intro first hfirst
        rw [List.prefix_nil.mp hfirst]
        exact hactive
      · intro more
        have hrun : run < app.nextRun := howned.below (run, id) hout
        exact over_acts hnext (Nat.lt_of_lt_of_le hrun (later_act isRedacted samePath howned _).nextRun) hover more

theorem result_taken_once_paused :
    ∃ before after result later, [.pauseJob 1, .taskEnds 0 (.error cancelled), .handleEvent] = before ++ Action.handleEvent :: after ∧
      (two.acts (fun _ => false) (fun _ _ => false) before).events = .jobFinished 0 1 result :: later := by
  have hout : (0, 1) ∈ two.outstanding := by decide
  rcases result_taken_once (reachable_fresh _) hout [.pauseJob 1, .taskEnds 0 (.error cancelled), .handleEvent] with
    hstill | ⟨before, after, result, later, heq, hevents, -, -⟩
  · exact absurd hstill.1 (by decide)
  · exact ⟨before, after, result, later, heq, hevents⟩

end App

end Hyperfetch.Gui
