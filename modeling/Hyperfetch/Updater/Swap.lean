import Hyperfetch.Weft.TSys
import Hyperfetch.Updater.Folder

/-!
# Putting an update in place (`updater.rs`)

`put_in_place` with `swap`, `old_name` and the rollback, one file operation a
step, over any number of updates: each may be cut off before any step, and
`cleanup_in` may run between two of them.

* **no program is lost** — at any cut a program is whole under its name, or
  can be finished from its new build, unless putting it back failed
  (`Inv`, `inv_step`);
* **an update's outcome** — a failed update leaves the old programs and an
  installed one the new, unless putting one back failed.

Left out: unpacking the extension's folder and swapping it in, of which only
the failure matters here. What is written to a file lies half written on the
disk until a sync, or until the system writes it by itself (`lands`).
-/

namespace Hyperfetch

namespace Updater

variable {V : Type}

inductive Phase
  | idle
  | creating (todo : List Program)
  | writing (exe : Program) (todo : List Program)
  | syncing (exe : Program) (todo : List Program)
  | unpacking
  | naming (todo : List Program) (moved : List (Program × FileName))
  | aside (exe : Program) (old : FileName) (todo : List Program) (moved : List (Program × FileName))
  | replacing (exe : Program) (old : FileName) (todo : List Program) (moved : List (Program × FileName))
  | rollingBack (moved : List (Program × FileName))
  | clearing (todo : List Program)
  | failed
  | installed
  deriving DecidableEq, Repr

structure State (V : Type) where
  folder : Folder V
  phase : Phase
  /-- The programs the last update was to replace, and their new builds. -/
  exes : List Program
  builds : Program → V
  /-- The folder the last update found. -/
  found : Folder V
  /-- The programs whose putting back failed in the last update. -/
  logged : List Program

inductive Event (V : Type)
  | update (exes : List Program) (builds : Program → V)
  | done
  | fails
  /-- The old name is taken by a program that still runs. -/
  | stays (unique : List Char)
  /-- What was written to a file reaches the disk before the sync. -/
  | lands
  | crash
  | cleanup

namespace State

/-- The folder before the first update: no file in it is cut off. -/
def Starts (s : State V) : Prop := s.phase = .idle ∧ ∀ name, s.folder name ≠ some .cut

def set (s : State V) (name : FileName) (file : Option (Build V)) (phase : Phase) : State V :=
  { s with folder := Function.update s.folder name file, phase := phase }

/-- A rename that works; `none` where there is no such file. -/
def move (s : State V) (source target : FileName) (phase : Phase) : Option (State V) :=
  if (s.folder source).isSome then some { s with folder := s.folder.rename source target, phase := phase }
  else none

def goTo (s : State V) (phase : Phase) : State V := { s with phase := phase }

/-- An update replaces the programs it finds. -/
def update (s : State V) (exes : List Program) (builds : Program → V) : Option (State V) :=
  match s.phase with
  | .idle =>
    if exes.Nodup ∧ ∀ exe ∈ exes, (s.folder exe.exe).isSome then
      some { folder := s.folder, phase := .creating exes, exes := exes, builds := builds, found := s.folder, logged := [] }
    else none
  | _ => none

/-- The next operation works. -/
def done (s : State V) : Option (State V) :=
  match s.phase with
  | .creating [] => some (s.goTo .unpacking)
  | .creating (exe :: todo) => some (s.set (newName exe) (some .cut) (.writing exe todo))
  | .writing exe todo => some (s.goTo (.syncing exe todo))
  | .syncing exe todo => some (s.set (newName exe) (some (.whole (s.builds exe))) (.creating todo))
  | .unpacking => some (s.goTo (.naming s.exes []))
  | .naming [] _ => some (s.goTo .installed)
  -- what was there is deleted, or nothing was
  | .naming (exe :: todo) moved => some (s.set (oldExe exe) none (.aside exe (oldExe exe) todo moved))
  | .aside exe old todo moved => s.move exe.exe old (.replacing exe old todo moved)
  | .replacing exe old todo moved => s.move (newName exe) exe.exe (.naming todo ((exe, old) :: moved))
  | .rollingBack [] => some (s.goTo (.clearing s.exes))
  | .rollingBack ((exe, old) :: moved) => s.move old exe.exe (.rollingBack moved)
  | .clearing [] => some (s.goTo .failed)
  | .clearing (exe :: todo) => some (s.set (newName exe) none (.clearing todo))
  | .idle | .failed | .installed => none

/-- The next operation fails and changes nothing. -/
def fails (s : State V) : Option (State V) :=
  match s.phase with
  | .creating (_ :: _) | .writing _ _ | .syncing _ _ | .unpacking => some (s.goTo (.clearing s.exes))
  | .aside _ _ _ moved => some (s.goTo (.rollingBack moved))
  | .replacing exe old _ moved => some (s.goTo (.rollingBack ((exe, old) :: moved)))
  | .rollingBack ((exe, _) :: moved) => some { s with phase := .rollingBack moved, logged := exe :: s.logged }
  | .clearing (_ :: todo) => some (s.goTo (.clearing todo))
  | _ => none

def stays (s : State V) (unique : List Char) : Option (State V) :=
  match s.phase with
  | .naming (exe :: todo) moved => some (s.goTo (.aside exe (oldUnique exe unique) todo moved))
  | _ => none

def lands (s : State V) : Option (State V) :=
  match s.phase with
  | .syncing exe todo => some (s.set (newName exe) (some (.whole (s.builds exe))) (.syncing exe todo))
  | _ => none

def cleanup (s : State V) : Option (State V) :=
  match s.phase with
  | .idle => some { s with folder := cleanupIn s.folder }
  | _ => none

end State

/-- Updates of the folder one after another, each up to its end or to a crash. -/
def updates (V : Type) : Weft.Machine (State V) (Event V) where
  init := State.Starts
  step s
    | .update exes builds => s.update exes builds
    | .done => s.done
    | .fails => s.fails
    | .stays unique => s.stays unique
    | .lands => s.lands
    | .crash => some (s.goTo .idle)
    | .cleanup => s.cleanup

/-! ## Where a program stands -/

/-- A name programs are moved aside to. -/
def IsOldName (p : Program) (name : FileName) : Prop := name = oldExe p ∨ ∃ unique, name = oldUnique p unique

namespace State

def IsOld (s : State V) (p : Program) : Prop := s.folder p.exe = s.found p.exe

def IsNew (s : State V) (p : Program) : Prop := s.folder p.exe = some (.whole (s.builds p))

/-- The new build is whole next to the program. -/
def Ready (s : State V) (p : Program) : Prop := s.folder (newName p) = some (.whole (s.builds p))

/-- The old program is whole under an old name. -/
def Kept (s : State V) (p : Program) (old : FileName) : Prop := IsOldName p old ∧ s.folder old = s.found p.exe

/-- Once the rollback is over: the old program, unless its putting back failed. -/
def GivenUp (s : State V) (p : Program) : Prop :=
  s.IsOld p ∨ p ∈ s.logged ∧ (∃ old, s.Kept p old) ∧
    (s.IsNew p ∨ s.folder p.exe = none ∧ (s.Ready p ∨ s.folder (newName p) = none))

def Replaced (s : State V) (moved : List (Program × FileName)) (p : Program) : Prop :=
  ∃ old, (p, old) ∈ moved ∧ s.Kept p old ∧ s.IsNew p

/-- Between being moved aside and the new build moved in. -/
def Missing (s : State V) (moved : List (Program × FileName)) (p : Program) : Prop :=
  ∃ old, (p, old) ∈ moved ∧ s.Kept p old ∧ s.folder p.exe = none ∧ s.Ready p

/-- What each phase of an update has done to one of its programs. -/
def At (s : State V) (p : Program) : Phase → Prop
  | .idle => True
  | .creating todo => s.IsOld p ∧ (p ∉ todo → s.Ready p)
  | .writing exe todo | .syncing exe todo => s.IsOld p ∧ (p ∉ exe :: todo → s.Ready p)
  | .unpacking => s.IsOld p ∧ s.Ready p
  | .naming todo moved => (p ∈ todo → s.IsOld p ∧ s.Ready p) ∧ (p ∉ todo → s.Replaced moved p)
  | .aside exe old todo moved =>
    IsOldName exe old ∧ (p ∈ exe :: todo → s.IsOld p ∧ s.Ready p) ∧ (p ∉ exe :: todo → s.Replaced moved p)
  | .replacing exe old todo moved =>
    (p = exe → s.Missing ((exe, old) :: moved) p) ∧ (p ∈ todo → s.IsOld p ∧ s.Ready p) ∧
      (p ≠ exe → p ∉ todo → s.Replaced moved p)
  | .rollingBack moved => s.Replaced moved p ∨ s.Missing moved p ∨ p ∉ moved.map Prod.fst ∧ s.GivenUp p
  | .clearing _ | .failed => s.GivenUp p
  | .installed => s.IsNew p

end State

/-- The programs an update still has to do something with. -/
def Phase.named : Phase → List Program
  | .creating todo | .clearing todo => todo
  | .writing exe todo | .syncing exe todo => exe :: todo
  | .naming todo moved => todo ++ moved.map Prod.fst
  | .aside exe _ todo moved | .replacing exe _ todo moved => exe :: (todo ++ moved.map Prod.fst)
  | .rollingBack moved => moved.map Prod.fst
  | .idle | .unpacking | .failed | .installed => []

/-- No program is cut off, nor would be finished from a build that is. -/
def Settled (f : Folder V) (p : Program) : Prop :=
  f p.exe ≠ some .cut ∧ (f p.exe = none → f (newName p) ≠ some .cut)

/-- An update on its way. -/
structure Running (s : State V) : Prop where
  exes_nodup : s.exes.Nodup
  named_nodup : s.phase.named.Nodup
  named_exes : s.phase.named ⊆ s.exes
  /-- Each of its programs was found whole. -/
  found : ∀ p ∈ s.exes, ∃ build, s.found p.exe = some (.whole build)
  settled : ∀ p, Settled s.found p
  others : ∀ p ∉ s.exes, SameFor p s.found s.folder
  stands : ∀ p ∈ s.exes, s.At p s.phase

def Inv (s : State V) : Prop := if s.phase = .idle then ∀ p, Settled s.folder p else Running s

/-! ## Frames -/

theorem IsOldName.named {p : Program} {name : FileName} (h : IsOldName p name) :
    ∃ ext, name = p.named ext ∧ ext ≠ "exe".toList ∧ ext ≠ "exe.new".toList := by
  have hne : ∀ rest : List Char, 'o' :: rest ≠ "exe".toList ∧ 'o' :: rest ≠ "exe.new".toList := by
    intro rest
    constructor <;> exact fun heq => absurd (List.cons.inj heq).1 (by decide)
  rcases h with rfl | ⟨unique, rfl⟩
  · exact ⟨_, oldExe_eq p, hne _⟩
  · exact ⟨_, oldUnique_eq p unique, hne _⟩

/-- A step of the same update that leaves the files of `p`. -/
structure Frame (p : Program) (s s' : State V) : Prop where
  folder : SameFor p s.folder s'.folder
  found : s'.found = s.found
  builds : s'.builds = s.builds
  logged : s.logged ⊆ s'.logged

namespace Frame

variable {p : Program} {s s' : State V} {moved : List (Program × FileName)}

theorem exe (h : Frame p s s') : s'.folder p.exe = s.folder p.exe := h.folder "exe".toList

theorem newName (h : Frame p s s') : s'.folder (newName p) = s.folder (newName p) := by
  rw [newName_eq]
  exact h.folder _

theorem isOld (h : Frame p s s') (hold : s.IsOld p) : s'.IsOld p := by
  unfold State.IsOld
  rw [h.exe, h.found]
  exact hold

theorem isNew (h : Frame p s s') (hnew : s.IsNew p) : s'.IsNew p := by
  unfold State.IsNew
  rw [h.exe, h.builds]
  exact hnew

theorem ready (h : Frame p s s') (hready : s.Ready p) : s'.Ready p := by
  unfold State.Ready
  rw [h.newName, h.builds]
  exact hready

theorem kept (h : Frame p s s') {old : FileName} (hkept : s.Kept p old) : s'.Kept p old := by
  refine ⟨hkept.1, ?_⟩
  obtain ⟨ext, rfl, _⟩ := hkept.1.named
  rw [h.folder, h.found]
  exact hkept.2

theorem replaced (h : Frame p s s') (hp : s.Replaced moved p) : s'.Replaced moved p := by
  obtain ⟨old, hmem, hkept, hnew⟩ := hp
  exact ⟨old, hmem, h.kept hkept, h.isNew hnew⟩

theorem missing (h : Frame p s s') (hp : s.Missing moved p) : s'.Missing moved p := by
  obtain ⟨old, hmem, hkept, hexe, hready⟩ := hp
  exact ⟨old, hmem, h.kept hkept, h.exe.trans hexe, h.ready hready⟩

theorem givenUp (h : Frame p s s') (hp : s.GivenUp p) : s'.GivenUp p := by
  rcases hp with hold | ⟨hlogged, ⟨old, hkept⟩, hexe⟩
  · exact .inl (h.isOld hold)
  refine .inr ⟨h.logged hlogged, ⟨old, h.kept hkept⟩, hexe.imp h.isNew fun hnone => ?_⟩
  exact ⟨h.exe.trans hnone.1, hnone.2.imp h.ready h.newName.trans⟩

/-- Where a program stands depends on its own files. -/
theorem stands (h : Frame p s s') {phase : Phase} (hp : s.At p phase) : s'.At p phase := by
  cases phase with
  | idle => trivial
  | creating | writing | syncing => exact ⟨h.isOld hp.1, fun hdone => h.ready (hp.2 hdone)⟩
  | unpacking => exact ⟨h.isOld hp.1, h.ready hp.2⟩
  | naming todo moved =>
    exact ⟨fun hmem => (hp.1 hmem).imp h.isOld h.ready, fun hdone => h.replaced (hp.2 hdone)⟩
  | aside exe old todo moved =>
    exact ⟨hp.1, fun hmem => (hp.2.1 hmem).imp h.isOld h.ready, fun hdone => h.replaced (hp.2.2 hdone)⟩
  | replacing exe old todo moved =>
    exact ⟨fun heq => h.missing (hp.1 heq), fun hmem => (hp.2.1 hmem).imp h.isOld h.ready,
      fun hne hdone => h.replaced (hp.2.2 hne hdone)⟩
  | rollingBack moved =>
    exact hp.imp h.replaced fun hrest => hrest.imp h.missing fun hover => ⟨hover.1, h.givenUp hover.2⟩
  | clearing | failed => exact h.givenUp hp
  | installed => exact h.isNew hp

end Frame

/-! ## One step -/

section Steps

variable {s s' : State V} {exe p : Program} {todo : List Program} {moved : List (Program × FileName)}

theorem Running.named (h : Running s) {phase : Phase} (hphase : s.phase = phase) :
    phase.named.Nodup ∧ phase.named ⊆ s.exes :=
  hphase ▸ ⟨h.named_nodup, h.named_exes⟩

/-- A step of an update that changes the files of `exe` at most. -/
theorem Running.step (h : Running s) (exe : Program) (hexes : s'.exes = s.exes)
    (hframe : ∀ p, p ≠ exe → Frame p s s') (hfound : s'.found = s.found)
    (hnamed : s'.phase.named.Nodup ∧ s'.phase.named ⊆ s.exes) (hexe : exe ∈ s.exes)
    (hstands : s.At exe s.phase → s'.At exe s'.phase)
    (hothers : ∀ p, p ≠ exe → s'.At p s.phase → s'.At p s'.phase) : Running s' where
  exes_nodup := hexes ▸ h.exes_nodup
  named_nodup := hnamed.1
  named_exes := hexes ▸ hnamed.2
  found := by rw [hexes, hfound]; exact h.found
  settled := by rw [hfound]; exact h.settled
  others := by
    rw [hexes, hfound]
    intro p hp
    have hne : p ≠ exe := fun heq => hp (heq ▸ hexe)
    exact (h.others p hp).trans (hframe p hne).folder
  stands := by
    rw [hexes]
    intro p hp
    by_cases heq : p = exe
    · subst heq
      exact hstands (h.stands p hp)
    · exact hothers p heq ((hframe p heq).stands (h.stands p hp))

/-- A step of an update that changes no file. -/
theorem Running.goTo (h : Running s) {phase : Phase}
    (hnamed : phase.named.Nodup ∧ phase.named ⊆ s.exes)
    (hstands : ∀ p ∈ s.exes, s.At p s.phase → s.At p phase) : Running (s.goTo phase) where
  exes_nodup := h.exes_nodup
  named_nodup := hnamed.1
  named_exes := hnamed.2
  found := h.found
  settled := h.settled
  others := h.others
  stands := fun p hp => hstands p hp (h.stands p hp)

theorem frame_set (hp : p ≠ exe) (ext : List Char) (file : Option (Build V)) (phase : Phase) :
    Frame p s (s.set (exe.named ext) file phase) :=
  ⟨sameFor_update hp s.folder ext file, rfl, rfl, List.Subset.refl _⟩

/-- The step that writes or deletes one file of `exe`. -/
theorem Running.set (h : Running s) {ext : List Char} {file : Option (Build V)} {phase : Phase}
    (hnamed : phase.named.Nodup ∧ phase.named ⊆ s.exes) (hexe : exe ∈ s.exes)
    (hstands : s.At exe s.phase → (s.set (exe.named ext) file phase).At exe phase)
    (hothers : ∀ p, p ≠ exe → (s.set (exe.named ext) file phase).At p s.phase →
      (s.set (exe.named ext) file phase).At p phase) : Running (s.set (exe.named ext) file phase) :=
  h.step exe rfl (fun _ hp => frame_set hp ext file phase) rfl hnamed hexe hstands hothers

theorem set_other {ext ext' : List Char} (hne : ext' ≠ ext) (file : Option (Build V)) (phase : Phase) :
    (s.set (exe.named ext) file phase).folder (exe.named ext') = s.folder (exe.named ext') :=
  Function.update_of_ne (named_ne (.inr hne)) _ _

theorem set_same (name : FileName) (file : Option (Build V)) (phase : Phase) :
    (s.set name file phase).folder name = file :=
  Function.update_self _ _ _

/-- Writing the new build does not touch the program. -/
theorem isOld_set (h : s.IsOld exe) (file : Option (Build V)) (phase : Phase) :
    (s.set (newName exe) file phase).IsOld exe := by
  unfold State.IsOld
  rw [newName_eq]
  exact (set_other (by decide) file phase).trans h

theorem ready_set (phase : Phase) :
    (s.set (newName exe) (some (.whole (s.builds exe))) phase).Ready exe :=
  set_same _ _ _

/-- The step that renames a file of `exe`. -/
theorem Running.move (h : Running s) {a b : List Char} {phase : Phase}
    (hmove : s.move (exe.named a) (exe.named b) phase = some s')
    (hnamed : phase.named.Nodup ∧ phase.named ⊆ s.exes) (hexe : exe ∈ s.exes)
    (hstands : s.At exe s.phase → s'.At exe phase)
    (hothers : ∀ p, p ≠ exe → s'.At p s.phase → s'.At p phase) : Running s' := by
  unfold State.move at hmove
  split at hmove
  · rw [Option.some.injEq] at hmove
    subst hmove
    exact h.step exe rfl (fun p hp => ⟨sameFor_rename hp s.folder a b, rfl, rfl, List.Subset.refl _⟩) rfl
      hnamed hexe hstands hothers
  · cases hmove

/-- The files of `exe` after one of them was renamed. -/
theorem move_named {a b : List Char} {phase : Phase} {build : Build V}
    (hmove : s.move (exe.named a) (exe.named b) phase = some s') (hsource : s.folder (exe.named a) = some build)
    (ext : List Char) :
    s'.folder (exe.named ext) =
      if ext = b then some build else if ext = a then none else s.folder (exe.named ext) := by
  unfold State.move at hmove
  rw [hsource, Option.isSome_some, if_pos rfl, Option.some.injEq] at hmove
  subst hmove
  exact rename_named hsource ext

theorem move_same {source target : FileName} {phase : Phase} (hmove : s.move source target phase = some s') :
    s'.found = s.found ∧ s'.builds = s.builds ∧ s'.phase = phase := by
  unfold State.move at hmove
  split at hmove
  · rw [Option.some.injEq] at hmove
    subst hmove
    exact ⟨rfl, rfl, rfl⟩
  · cases hmove

theorem running_creates (h : Running s) (hphase : s.phase = .creating (exe :: todo)) :
    Running (s.set (newName exe) (some .cut) (.writing exe todo)) := by
  obtain ⟨hnamed, hsub⟩ := h.named hphase
  rw [newName_eq]
  refine h.set ⟨hnamed, hsub⟩ (hsub List.mem_cons_self) ?_ ?_
  · rw [hphase, ← newName_eq]
    exact fun hat => ⟨isOld_set hat.1 _ _, fun hdone => absurd List.mem_cons_self hdone⟩
  · rw [hphase]
    exact fun _ _ hat => hat

theorem running_synced (h : Running s) (hphase : s.phase = .syncing exe todo) {phase : Phase}
    (hnext : phase = .creating todo ∨ phase = .syncing exe todo) :
    Running (s.set (newName exe) (some (.whole (s.builds exe))) phase) := by
  obtain ⟨hnamed, hsub⟩ := h.named hphase
  have hexe := hsub List.mem_cons_self
  rw [newName_eq]
  rcases hnext with rfl | rfl
  · refine h.set ⟨(List.nodup_cons.mp hnamed).2, fun _ hp => hsub (List.mem_cons_of_mem _ hp)⟩ hexe ?_ ?_
    · rw [hphase, ← newName_eq]
      exact fun hat => ⟨isOld_set hat.1 _ _, fun _ => ready_set _⟩
    · rw [hphase]
      exact fun p hp hat => ⟨hat.1, fun hdone => hat.2 (List.not_mem_cons_of_ne_of_not_mem hp hdone)⟩
  · refine h.set ⟨hnamed, hsub⟩ hexe ?_ ?_
    · rw [hphase, ← newName_eq]
      exact fun hat => ⟨isOld_set hat.1 _ _, fun _ => ready_set _⟩
    · rw [hphase]
      exact fun _ _ hat => hat

/-- What is at the old name goes; nothing of this update is there yet. -/
theorem running_deletesOld (h : Running s) (hphase : s.phase = .naming (exe :: todo) moved) :
    Running (s.set (oldExe exe) none (.aside exe (oldExe exe) todo moved)) := by
  obtain ⟨hnamed, hsub⟩ := h.named hphase
  rw [oldExe_eq]
  refine h.set ⟨hnamed, hsub⟩ (hsub List.mem_cons_self) ?_ ?_
  · rw [hphase]
    intro hat
    obtain ⟨hold, hready⟩ := hat.1 List.mem_cons_self
    have hready' : (s.set (exe.named "old.exe".toList) none
        (.aside exe (exe.named "old.exe".toList) todo moved)).Ready exe := by
      unfold State.Ready at hready ⊢
      rw [newName_eq] at hready ⊢
      exact (set_other (by decide) _ _).trans hready
    exact ⟨.inl rfl, fun _ => ⟨(set_other (by decide) _ _).trans hold, hready'⟩,
      fun hdone => absurd List.mem_cons_self hdone⟩
  · rw [hphase]
    exact fun _ _ hat => ⟨.inl rfl, hat⟩

theorem running_movesAside (h : Running s) {old : FileName} (hphase : s.phase = .aside exe old todo moved)
    (hmove : s.move exe.exe old (.replacing exe old todo moved) = some s') : Running s' := by
  obtain ⟨hnamed, hsub⟩ := h.named hphase
  have hexe := hsub List.mem_cons_self
  have hat : s.At exe (.aside exe old todo moved) := hphase ▸ h.stands exe hexe
  obtain ⟨ext, rfl, hne, hne'⟩ := hat.1.named
  obtain ⟨build, hbuild⟩ := h.found exe hexe
  obtain ⟨hold, hready⟩ := hat.2.1 List.mem_cons_self
  unfold State.Ready at hready
  rw [newName_eq] at hready
  rw [exe_eq] at hmove
  have hfiles := move_named hmove (hold.trans hbuild)
  obtain ⟨hfound, hbuilds, _⟩ := move_same hmove
  refine h.move hmove ⟨hnamed, hsub⟩ hexe ?_ ?_
  · -- the old program is where it was moved, and its new build waits
    intro _
    have hmissing : s'.Missing ((exe, exe.named ext) :: moved) exe := by
      refine ⟨_, List.mem_cons_self, ⟨hat.1, ?_⟩, ?_, ?_⟩
      · rw [hfound, hbuild]
        exact (hfiles ext).trans (if_pos rfl)
      · exact (hfiles _).trans ((if_neg hne.symm).trans (if_pos rfl))
      · unfold State.Ready
        rw [hbuilds, newName_eq]
        exact (hfiles _).trans ((if_neg hne'.symm).trans ((if_neg (by decide)).trans hready))
    refine ⟨fun _ => hmissing, fun htodo => ?_, fun hself => absurd rfl hself⟩
    exact absurd (List.mem_append_left _ htodo) (List.nodup_cons.mp hnamed).1
  · rw [hphase]
    intro p hp hat
    exact ⟨fun heq => absurd heq hp, fun htodo => hat.2.1 (List.mem_cons_of_mem _ htodo),
      fun _ hdone => hat.2.2 (List.not_mem_cons_of_ne_of_not_mem hp hdone)⟩

theorem State.Replaced.cons (h : s.Replaced moved p) (entry : Program × FileName) :
    s.Replaced (entry :: moved) p := by
  obtain ⟨old, hmem, hrest⟩ := h
  exact ⟨old, List.mem_cons_of_mem _ hmem, hrest⟩

theorem running_movesIn (h : Running s) {old : FileName} (hphase : s.phase = .replacing exe old todo moved)
    (hmove : s.move (newName exe) exe.exe (.naming todo ((exe, old) :: moved)) = some s') : Running s' := by
  obtain ⟨hnamed, hsub⟩ := h.named hphase
  have hexe := hsub List.mem_cons_self
  have hat : s.At exe (.replacing exe old todo moved) := hphase ▸ h.stands exe hexe
  obtain ⟨old', hmem, hkept, _, hready⟩ := hat.1 rfl
  rw [newName_eq, exe_eq] at hmove
  have hready' : s.folder (exe.named "exe.new".toList) = some (.whole (s.builds exe)) := newName_eq exe ▸ hready
  have hfiles := move_named hmove hready'
  obtain ⟨hfound, hbuilds, _⟩ := move_same hmove
  have hdone : exe ∉ todo := fun htodo => (List.nodup_cons.mp hnamed).1 (List.mem_append_left _ htodo)
  have hperm : (todo ++ exe :: moved.map Prod.fst).Perm (exe :: (todo ++ moved.map Prod.fst)) :=
    List.perm_middle
  refine h.move hmove ⟨hperm.nodup_iff.mpr hnamed, fun p hp => hsub (hperm.mem_iff.mp hp)⟩ hexe
    (fun _ => ⟨fun htodo => absurd htodo hdone, fun _ => ?_⟩) ?_
  · refine ⟨old', hmem, ⟨hkept.1, ?_⟩, ?_⟩
    · obtain ⟨ext, rfl, hne, hne'⟩ := hkept.1.named
      rw [hfound, hfiles, if_neg hne, if_neg hne']
      exact hkept.2
    · unfold State.IsNew
      rw [hbuilds]
      exact (hfiles _).trans (if_pos rfl)
  · rw [hphase]
    exact fun p hp hat => ⟨hat.2.1, fun hdone => (hat.2.2 hp hdone).cons _⟩

theorem at_rollingBack_tail {old : FileName} (hp : p ≠ exe) (hat : s.At p (.rollingBack ((exe, old) :: moved))) :
    s.At p (.rollingBack moved) := by
  have htail : ∀ old', (p, old') ∈ (exe, old) :: moved → (p, old') ∈ moved := fun old' hmem =>
    (List.mem_cons.mp hmem).resolve_left fun heq => hp (Prod.mk.inj heq).1
  rcases hat with ⟨old', hmem, hrest⟩ | ⟨old', hmem, hrest⟩ | ⟨hout, hrest⟩
  · exact .inl ⟨old', htail old' hmem, hrest⟩
  · exact .inr (.inl ⟨old', htail old' hmem, hrest⟩)
  · exact .inr (.inr ⟨fun hmem => hout (List.mem_cons_of_mem _ hmem), hrest⟩)

theorem running_putsBack (h : Running s) {old : FileName} (hphase : s.phase = .rollingBack ((exe, old) :: moved))
    (hmove : s.move old exe.exe (.rollingBack moved) = some s') : Running s' := by
  have hnamed := List.nodup_cons.mp (h.named hphase).1
  have hsub := (h.named hphase).2
  have hexe := hsub List.mem_cons_self
  have hat : s.At exe (.rollingBack ((exe, old) :: moved)) := hphase ▸ h.stands exe hexe
  -- `exe` was moved aside once, so what is put back is what it was
  have hown : ∀ old', (exe, old') ∈ (exe, old) :: moved → old' = old := by
    intro old' hmem
    rcases List.mem_cons.mp hmem with heq | hlater
    · exact (Prod.mk.inj heq).2
    · exact absurd (List.mem_map_of_mem hlater) hnamed.1
  have hkept : s.Kept exe old := by
    rcases hat with ⟨old', hmem, hkept, _⟩ | ⟨old', hmem, hkept, _⟩ | ⟨hout, _⟩
    · exact hown old' hmem ▸ hkept
    · exact hown old' hmem ▸ hkept
    · exact absurd List.mem_cons_self hout
  obtain ⟨ext, rfl, _⟩ := hkept.1.named
  obtain ⟨build, hbuild⟩ := h.found exe hexe
  rw [exe_eq] at hmove
  have hfiles := move_named hmove (hkept.2.trans hbuild)
  refine h.move hmove ⟨hnamed.2, fun _ hp => hsub (List.mem_cons_of_mem _ hp)⟩ hexe (fun _ => ?_) ?_
  · refine .inr (.inr ⟨hnamed.1, .inl ?_⟩)
    unfold State.IsOld
    rw [(move_same hmove).1, hbuild]
    exact (hfiles _).trans (if_pos rfl)
  · rw [hphase]
    intro p hp hat
    exact at_rollingBack_tail hp hat

theorem running_clears (h : Running s) (hphase : s.phase = .clearing (exe :: todo)) :
    Running (s.set (newName exe) none (.clearing todo)) := by
  have hnamed := List.nodup_cons.mp (h.named hphase).1
  have hsub := (h.named hphase).2
  rw [newName_eq]
  refine h.set ⟨hnamed.2, fun _ hp => hsub (List.mem_cons_of_mem _ hp)⟩ (hsub List.mem_cons_self) ?_ ?_
  · rw [hphase]
    intro hat
    rcases hat with hold | ⟨hlogged, ⟨old, hkept⟩, hexe⟩
    · exact .inl ((set_other (by decide) _ _).trans hold)
    · refine .inr ⟨hlogged, ⟨old, hkept.1, ?_⟩, hexe.imp (set_other (by decide) _ _).trans fun hnone => ?_⟩
      · obtain ⟨ext, rfl, _, hne⟩ := hkept.1.named
        exact (set_other hne _ _).trans hkept.2
      · exact ⟨(set_other (by decide) _ _).trans hnone.1, .inr (newName_eq exe ▸ set_same _ _ _)⟩
  · rw [hphase]
    exact fun _ _ hat => hat

theorem running_done (h : Running s) (hdone : s.done = some s') : Running s' ∧ s'.phase ≠ .idle := by
  unfold State.done at hdone
  split at hdone
  case h_1 hphase =>
    cases hdone
    refine ⟨h.goTo ⟨List.nodup_nil, List.nil_subset _⟩ fun p _ hat => ?_, fun hidle => by cases hidle⟩
    rw [hphase] at hat
    exact ⟨hat.1, hat.2 List.not_mem_nil⟩
  case h_2 hphase =>
    cases hdone
    exact ⟨running_creates h hphase, fun hidle => by cases hidle⟩
  case h_3 hphase =>
    cases hdone
    obtain ⟨hnamed, hsub⟩ := h.named hphase
    refine ⟨h.goTo ⟨hnamed, hsub⟩ fun p _ hat => ?_, fun hidle => by cases hidle⟩
    rw [hphase] at hat
    exact hat
  case h_4 hphase =>
    cases hdone
    exact ⟨running_synced h hphase (.inl rfl), fun hidle => by cases hidle⟩
  case h_5 hphase =>
    cases hdone
    have hnamed : (Phase.naming s.exes []).named = s.exes := List.append_nil _
    refine ⟨h.goTo (by rw [hnamed]; exact ⟨h.exes_nodup, List.Subset.refl _⟩) fun p hp hat => ?_,
      fun hidle => by cases hidle⟩
    rw [hphase] at hat
    exact ⟨fun _ => hat, fun hout => absurd hp hout⟩
  case h_6 hphase =>
    cases hdone
    refine ⟨h.goTo ⟨List.nodup_nil, List.nil_subset _⟩ fun p _ hat => ?_, fun hidle => by cases hidle⟩
    rw [hphase] at hat
    obtain ⟨_, _, _, hnew⟩ := hat.2 List.not_mem_nil
    exact hnew
  case h_7 hphase =>
    cases hdone
    exact ⟨running_deletesOld h hphase, fun hidle => by cases hidle⟩
  case h_8 hphase =>
    exact ⟨running_movesAside h hphase hdone, fun hidle => by rw [(move_same hdone).2.2] at hidle; cases hidle⟩
  case h_9 hphase =>
    exact ⟨running_movesIn h hphase hdone, fun hidle => by rw [(move_same hdone).2.2] at hidle; cases hidle⟩
  case h_10 hphase =>
    cases hdone
    refine ⟨h.goTo ⟨h.exes_nodup, List.Subset.refl _⟩ fun p _ hat => ?_, fun hidle => by cases hidle⟩
    rw [hphase] at hat
    rcases hat with ⟨_, hmem, _⟩ | ⟨_, hmem, _⟩ | ⟨_, hover⟩
    · cases hmem
    · cases hmem
    · exact hover
  case h_11 hphase =>
    exact ⟨running_putsBack h hphase hdone, fun hidle => by rw [(move_same hdone).2.2] at hidle; cases hidle⟩
  case h_12 hphase =>
    cases hdone
    refine ⟨h.goTo ⟨List.nodup_nil, List.nil_subset _⟩ fun p _ hat => ?_, fun hidle => by cases hidle⟩
    rw [hphase] at hat
    exact hat
  case h_13 hphase =>
    cases hdone
    exact ⟨running_clears h hphase, fun hidle => by cases hidle⟩
  all_goals cases hdone

/-- A failure before the swap leaves every program where it was. -/
theorem running_abandons (h : Running s) (hold : ∀ p, s.At p s.phase → s.IsOld p) :
    Running (s.goTo (.clearing s.exes)) :=
  h.goTo ⟨h.exes_nodup, List.Subset.refl _⟩ fun p _ hat => .inl (hold p hat)

/-- What was replaced is put back; what was not is as it was. -/
theorem at_rollingBack (h : (exe :: (todo ++ moved.map Prod.fst)).Nodup)
    (htodo : p ∈ exe :: todo → s.IsOld p ∧ s.Ready p) (hdone : p ∉ exe :: todo → s.Replaced moved p) :
    s.At p (.rollingBack moved) := by
  by_cases hp : p ∈ exe :: todo
  · have hout : p ∉ moved.map Prod.fst := fun hmoved =>
      (List.nodup_append.mp (List.cons_append ▸ h : (exe :: todo ++ moved.map Prod.fst).Nodup)).2.2 p hp p hmoved rfl
    exact .inr (.inr ⟨hout, .inl (htodo hp).1⟩)
  · exact .inl (hdone hp)

theorem running_logs (h : Running s) {old : FileName} (hphase : s.phase = .rollingBack ((exe, old) :: moved)) :
    Running { s with phase := .rollingBack moved, logged := exe :: s.logged } := by
  have hnamed := List.nodup_cons.mp (h.named hphase).1
  have hsub := (h.named hphase).2
  have hframe : ∀ p, Frame p s { s with phase := .rollingBack moved, logged := exe :: s.logged } := fun p =>
    ⟨.refl p _, rfl, rfl, List.subset_cons_self _ _⟩
  refine h.step exe rfl (fun p _ => hframe p) rfl ⟨hnamed.2, fun _ hp => hsub (List.mem_cons_of_mem _ hp)⟩
    (hsub List.mem_cons_self) ?_ ?_
  · intro hat
    rw [hphase] at hat
    refine .inr (.inr ⟨hnamed.1, ?_⟩)
    rcases (hframe exe).stands hat with ⟨old', _, hkept, hnew⟩ | ⟨old', _, hkept, hexe, hready⟩ | ⟨hout, _⟩
    · exact .inr ⟨List.mem_cons_self, ⟨old', hkept⟩, .inl hnew⟩
    · exact .inr ⟨List.mem_cons_self, ⟨old', hkept⟩, .inr ⟨hexe, .inl hready⟩⟩
    · exact absurd List.mem_cons_self hout
  · intro p hp hat
    rw [hphase] at hat
    exact at_rollingBack_tail hp hat

theorem running_fails (h : Running s) (hfails : s.fails = some s') : Running s' ∧ s'.phase ≠ .idle := by
  unfold State.fails at hfails
  split at hfails
  case h_1 hphase | h_2 hphase | h_3 hphase | h_4 hphase =>
    cases hfails
    refine ⟨running_abandons h fun p hat => ?_, fun hidle => by cases hidle⟩
    rw [hphase] at hat
    exact hat.1
  case h_5 exe old todo moved hphase =>
    cases hfails
    obtain ⟨hnamed, hsub⟩ := h.named hphase
    refine ⟨h.goTo ⟨(List.nodup_append.mp (List.nodup_cons.mp hnamed).2).2.1, fun p hp => ?_⟩ fun p _ hat => ?_,
      fun hidle => by cases hidle⟩
    · exact hsub (List.mem_cons_of_mem _ (List.mem_append_right _ hp))
    · rw [hphase] at hat
      exact at_rollingBack hnamed hat.2.1 hat.2.2
  case h_6 exe old todo moved hphase =>
    cases hfails
    obtain ⟨hnamed, hsub⟩ := h.named hphase
    have hperm : (todo ++ exe :: moved.map Prod.fst).Perm (exe :: (todo ++ moved.map Prod.fst)) :=
      List.perm_middle
    refine ⟨h.goTo ⟨(List.nodup_append.mp (hperm.nodup_iff.mpr hnamed)).2.1, fun p hp => ?_⟩ fun p _ hat => ?_,
      fun hidle => by cases hidle⟩
    · exact hsub (hperm.mem_iff.mp (List.mem_append_right _ hp))
    · rw [hphase] at hat
      by_cases hp : p = exe
      · exact .inr (.inl (hat.1 hp))
      by_cases htodo : p ∈ todo
      · have hout : p ∉ (exe :: moved.map Prod.fst) := fun hmoved =>
          (List.nodup_append.mp (hperm.nodup_iff.mpr hnamed)).2.2 p htodo p hmoved rfl
        exact .inr (.inr ⟨hout, .inl (hat.2.1 htodo).1⟩)
      · exact .inl ((hat.2.2 hp htodo).cons _)
  case h_7 hphase =>
    cases hfails
    exact ⟨running_logs h hphase, fun hidle => by cases hidle⟩
  case h_8 hphase =>
    cases hfails
    have hnamed := List.nodup_cons.mp (h.named hphase).1
    have hsub := (h.named hphase).2
    refine ⟨h.goTo ⟨hnamed.2, fun _ hp => hsub (List.mem_cons_of_mem _ hp)⟩ fun p _ hat => ?_,
      fun hidle => by cases hidle⟩
    rw [hphase] at hat
    exact hat
  case h_9 => cases hfails

theorem running_stays (h : Running s) {unique : List Char} (hstays : s.stays unique = some s') :
    Running s' ∧ s'.phase ≠ .idle := by
  unfold State.stays at hstays
  split at hstays
  case h_1 hphase =>
    cases hstays
    obtain ⟨hnamed, hsub⟩ := h.named hphase
    refine ⟨h.goTo ⟨hnamed, hsub⟩ fun p _ hat => ?_, fun hidle => by cases hidle⟩
    rw [hphase] at hat
    exact ⟨.inr ⟨unique, rfl⟩, hat⟩
  case h_2 => cases hstays

theorem running_lands (h : Running s) (hlands : s.lands = some s') : Running s' ∧ s'.phase ≠ .idle := by
  unfold State.lands at hlands
  split at hlands
  case h_1 hphase =>
    cases hlands
    exact ⟨running_synced h hphase (.inr rfl), fun hidle => by cases hidle⟩
  case h_2 => cases hlands

/-! ## Any cut -/

/-- A program of an update at any moment: whole under its name, or missing
with its new build waiting, or missing because putting it back failed. -/
def State.Safe (s : State V) (p : Program) : Prop :=
  s.IsOld p ∨ s.IsNew p ∨ s.folder p.exe = none ∧
    (s.Ready p ∨ s.folder (newName p) = none ∧ p ∈ s.logged ∧ ∃ old, s.Kept p old)

theorem State.GivenUp.safe (h : s.GivenUp p) : s.Safe p := by
  rcases h with hold | ⟨hlogged, hkept, hnew | ⟨hexe, hready | hgone⟩⟩
  · exact .inl hold
  · exact .inr (.inl hnew)
  · exact .inr (.inr ⟨hexe, .inl hready⟩)
  · exact .inr (.inr ⟨hexe, .inr ⟨hgone, hlogged, hkept⟩⟩)

theorem State.Replaced.safe (h : s.Replaced moved p) : s.Safe p := by
  obtain ⟨_, _, _, hnew⟩ := h
  exact .inr (.inl hnew)

theorem State.Missing.safe (h : s.Missing moved p) : s.Safe p := by
  obtain ⟨_, _, _, hexe, hready⟩ := h
  exact .inr (.inr ⟨hexe, .inl hready⟩)

theorem Running.safe (h : Running s) (hidle : s.phase ≠ .idle) (hp : p ∈ s.exes) : s.Safe p := by
  have hat := h.stands p hp
  cases hphase : s.phase with
  | idle => exact absurd hphase hidle
  | creating | writing | syncing | unpacking =>
    rw [hphase] at hat
    exact .inl hat.1
  | naming todo moved =>
    rw [hphase] at hat
    by_cases hmem : p ∈ todo
    · exact .inl (hat.1 hmem).1
    · exact (hat.2 hmem).safe
  | aside exe old todo moved =>
    rw [hphase] at hat
    by_cases hmem : p ∈ exe :: todo
    · exact .inl (hat.2.1 hmem).1
    · exact (hat.2.2 hmem).safe
  | replacing exe old todo moved =>
    rw [hphase] at hat
    by_cases heq : p = exe
    · exact (hat.1 heq).safe
    by_cases hmem : p ∈ todo
    · exact .inl (hat.2.1 hmem).1
    · exact (hat.2.2 heq hmem).safe
  | rollingBack moved =>
    rw [hphase] at hat
    exact hat.elim (·.safe) fun hrest => hrest.elim (·.safe) fun hover => hover.2.safe
  | clearing | failed =>
    rw [hphase] at hat
    exact State.GivenUp.safe hat
  | installed =>
    rw [hphase] at hat
    exact .inr (.inl hat)

theorem Running.folder_settled (h : Running s) (hidle : s.phase ≠ .idle) (p : Program) : Settled s.folder p := by
  by_cases hp : p ∈ s.exes
  · obtain ⟨build, hfound⟩ := h.found p hp
    have hwhole : ∀ build : V, s.folder p.exe = some (.whole build) → Settled s.folder p := by
      intro build hexe
      rw [Settled, hexe]
      exact ⟨fun heq => (by cases heq), fun heq => (by cases heq)⟩
    rcases h.safe hidle hp with hold | hnew | ⟨hexe, hbuild⟩
    · exact hwhole _ (hold.trans hfound)
    · exact hwhole _ hnew
    · refine ⟨fun heq => ?_, fun _ heq => ?_⟩
      · rw [hexe] at heq
        cases heq
      · rcases hbuild with hready | ⟨hgone, _⟩
        · rw [hready] at heq
          cases heq
        · rw [hgone] at heq
          cases heq
  · have hsame := h.others p hp
    have hexe : s.folder p.exe = s.found p.exe := hsame "exe".toList
    have hnew : s.folder (newName p) = s.found (newName p) := by rw [newName_eq]; exact hsame _
    rw [Settled, hexe, hnew]
    exact h.settled p

/-- Cleanup finishes no swap with a build that is cut off. -/
theorem settled_cleanupIn {f : Folder V} (h : ∀ p, Settled f p) (p : Program) : Settled (cleanupIn f) p := by
  cases hexe : f p.exe with
  | some build =>
    rw [Settled, cleanupIn_present hexe]
    exact ⟨hexe ▸ (h p).1, fun heq => by cases heq⟩
  | none =>
    have hnew := (h p).2 hexe
    cases hbuild : f (newName p) with
    | some build =>
      rw [Settled, cleanupIn_missing hexe, hbuild]
      exact ⟨hbuild ▸ hnew, fun heq => by cases heq⟩
    | none =>
      have hsame : cleanupIn f (newName p) = f (newName p) := by
        rw [newName_eq]
        exact cleanupIn_keeps hexe hbuild _
      rw [Settled, cleanupIn_missing hexe, hsame, hbuild]
      exact ⟨fun heq => (by cases heq), fun _ heq => (by cases heq)⟩

theorem inv_running (h : Running s ∧ s.phase ≠ .idle) : Inv s := by
  rw [Inv, if_neg h.2]
  exact h.1

theorem Inv.running (h : Inv s) (hidle : s.phase ≠ .idle) : Running s := by
  rw [Inv, if_neg hidle] at h
  exact h

theorem Inv.settled (h : Inv s) (p : Program) : Settled s.folder p := by
  by_cases hidle : s.phase = .idle
  · rw [Inv, if_pos hidle] at h
    exact h p
  · exact (h.running hidle).folder_settled hidle p

/-- An update starts from what the updates before it left. -/
theorem running_update (h : Inv s) {exes : List Program} {builds : Program → V}
    (hupdate : s.update exes builds = some s') : Running s' ∧ s'.phase ≠ .idle := by
  unfold State.update at hupdate
  split at hupdate
  case h_1 hphase =>
    split at hupdate
    case isTrue hexes =>
      cases hupdate
      refine ⟨⟨hexes.1, hexes.1, List.Subset.refl _, fun p hp => ?_, h.settled, fun p _ => .refl p _,
        fun p hp => ⟨rfl, fun hout => absurd hp hout⟩⟩, fun hidle => by cases hidle⟩
      obtain ⟨build, hbuild⟩ := Option.isSome_iff_exists.mp (hexes.2 p hp)
      cases build with
      | whole build => exact ⟨build, hbuild⟩
      | cut => exact absurd hbuild (h.settled p).1
    case isFalse => cases hupdate
  case h_2 => cases hupdate

theorem inv_step {e : Event V} (h : Inv s) (hstep : (updates V).step s e = some s') : Inv s' := by
  have hphase : ∀ next : Option (State V), (s.phase = .idle → next = none) → next = some s' → s.phase ≠ .idle :=
    fun _ hnone hnext hidle => by rw [hnone hidle] at hnext; cases hnext
  cases e with
  | update exes builds => exact inv_running (running_update h hstep)
  | done =>
    have hidle := hphase s.done (fun hidle => by unfold State.done; rw [hidle]) hstep
    exact inv_running (running_done (h.running hidle) hstep)
  | fails =>
    have hidle := hphase s.fails (fun hidle => by unfold State.fails; rw [hidle]) hstep
    exact inv_running (running_fails (h.running hidle) hstep)
  | stays unique =>
    have hidle := hphase (s.stays unique) (fun hidle => by unfold State.stays; rw [hidle]) hstep
    exact inv_running (running_stays (h.running hidle) hstep)
  | lands =>
    have hidle := hphase s.lands (fun hidle => by unfold State.lands; rw [hidle]) hstep
    exact inv_running (running_lands (h.running hidle) hstep)
  | crash =>
    cases hstep
    exact (if_pos (rfl : (s.goTo .idle).phase = .idle)).mpr h.settled
  | cleanup =>
    change s.cleanup = some s' at hstep
    unfold State.cleanup at hstep
    split at hstep
    case h_1 hidle =>
      cases hstep
      rw [Inv, if_pos hidle]
      exact settled_cleanupIn h.settled
    case h_2 => cases hstep

theorem inv_reachable : (updates V).toTSys.Invariant Inv :=
  Weft.TSys.Inductive.invariant
    { init := by
        rintro s ⟨hidle, hwhole⟩
        rw [Inv, if_pos hidle]
        exact fun p => ⟨hwhole _, fun _ => hwhole _⟩
      step := fun _ _ h ⟨_, hstep⟩ => inv_step h hstep }

/-- After a crash and a cleanup a program is whole, or its old build is still
where it was moved. -/
theorem State.Safe.cleanup (h : s.Safe p) (hwhole : ∃ build, s.found p.exe = some (.whole build)) :
    cleanupIn s.folder p.exe = s.found p.exe ∨ cleanupIn s.folder p.exe = some (.whole (s.builds p)) ∨
      p ∈ s.logged ∧ ∃ old, IsOldName p old ∧ cleanupIn s.folder old = s.found p.exe := by
  obtain ⟨build, hfound⟩ := hwhole
  rcases h with hold | hnew | ⟨hexe, hready | ⟨hgone, hlogged, old, holdName, hkept⟩⟩
  · exact .inl ((cleanupIn_present (hold.trans hfound)).trans hfound.symm)
  · exact .inr (.inl (cleanupIn_present hnew))
  · exact .inr (.inl ((cleanupIn_missing hexe).trans hready))
  · obtain ⟨ext, rfl, _⟩ := holdName.named
    exact .inr (.inr ⟨hlogged, _, holdName, (cleanupIn_keeps hexe hgone ext).trans hkept⟩)

theorem Running.failed_old (h : Running s) (hphase : s.phase = .failed) (hlogged : s.logged = [])
    (hp : p ∈ s.exes) : s.folder p.exe = s.found p.exe := by
  have hat := h.stands p hp
  rw [hphase] at hat
  rcases hat with hold | ⟨hmem, _⟩
  · exact hold
  · rw [hlogged] at hmem
    cases hmem

theorem Running.installed_new (h : Running s) (hphase : s.phase = .installed) (hp : p ∈ s.exes) :
    s.folder p.exe = some (.whole (s.builds p)) := by
  have hat := h.stands p hp
  rw [hphase] at hat
  exact hat

/-- A missing program is finished, or loses nothing. -/
theorem cleanupIn_keeps_only {f : Folder V} (hsettled : Settled f p) (hexe : f p.exe = none) (ext : List Char) :
    (∃ present, cleanupIn f p.exe = some (.whole present)) ∨ cleanupIn f (p.named ext) = f (p.named ext) := by
  cases hnew : f (newName p) with
  | none => exact .inr (cleanupIn_keeps hexe hnew ext)
  | some build =>
    cases build with
    | whole present => exact .inl ⟨present, (cleanupIn_missing hexe).trans hnew⟩
    | cut => exact absurd hnew (hsettled.2 hexe)

/-- An update cut off anywhere, and then a cleanup: each program is the old or
the new one whole, or its putting back failed and the old one is kept under
the name it was moved to. An update that fails puts back every program it
can, one that ends has replaced them all, and cleanup never deletes the only
whole build of a missing program. -/
theorem cut_off_update (hreach : (updates V).toTSys.Reachable s) :
    (s.phase ≠ .idle → ∀ p ∈ s.exes, (∃ build, s.found p.exe = some (.whole build)) ∧
      (cleanupIn s.folder p.exe = s.found p.exe ∨ cleanupIn s.folder p.exe = some (.whole (s.builds p)) ∨
        p ∈ s.logged ∧ ∃ old, IsOldName p old ∧ cleanupIn s.folder old = s.found p.exe)) ∧
    (s.phase = .failed → s.logged = [] → ∀ p ∈ s.exes, s.folder p.exe = s.found p.exe) ∧
    (s.phase = .installed → ∀ p ∈ s.exes, s.folder p.exe = some (.whole (s.builds p))) ∧
    ∀ (p : Program) ext build, s.folder p.exe = none → s.folder (p.named ext) = some (.whole build) →
      (∃ present, cleanupIn s.folder p.exe = some (.whole present)) ∨
        cleanupIn s.folder (p.named ext) = some (.whole build) := by
  have hinv := inv_reachable s hreach
  refine ⟨fun hidle p hp => ?_, fun hphase hlogged p hp => ?_, fun hphase p hp => ?_, fun p ext build hexe hbuild => ?_⟩
  · have hrunning := hinv.running hidle
    have hwhole := hrunning.found p hp
    exact ⟨hwhole, (hrunning.safe hidle hp).cleanup hwhole⟩
  · have hidle : s.phase ≠ .idle := fun hidle => by rw [hphase] at hidle; cases hidle
    exact (hinv.running hidle).failed_old hphase hlogged hp
  · have hidle : s.phase ≠ .idle := fun hidle => by rw [hphase] at hidle; cases hidle
    exact (hinv.running hidle).installed_new hphase hp
  · exact (cleanupIn_keeps_only (hinv.settled p) hexe ext).imp id (·.trans hbuild)

/-- The command line program alone, of version 1. -/
def onlyCli : State Nat where
  folder := Function.update (fun _ => none) Program.cli.exe (some (.whole 1))
  phase := .idle
  exes := []
  builds := fun _ => 0
  found := fun _ => none
  logged := []

theorem onlyCli_starts : onlyCli.Starts := by
  refine ⟨rfl, fun name => ?_⟩
  show Function.update (fun _ => none) Program.cli.exe (some (Build.whole 1)) name ≠ some .cut
  by_cases hname : name = Program.cli.exe
  · rw [hname, Function.update_self]
    exact fun heq => by cases heq
  · rw [Function.update_of_ne hname]
    exact fun heq => by cases heq

/-- Up to the start of the swap. -/
def written : List (Event Nat) := [.update [.cli] fun _ => 2, .done, .done, .done, .done, .done]

/-- Neither the new build nor, on the way back, the old one can be moved in;
the new one is deleted. -/
def lost : List (Event Nat) := written ++ [.done, .done, .fails, .fails, .done, .done]

theorem lost_run : ∃ s, (updates Nat).run onlyCli lost = some s ∧ s.phase = .clearing [] ∧
    s.exes = [.cli] ∧ cleanupIn s.folder Program.cli.exe = none := by
  refine ⟨_, rfl, rfl, rfl, ?_⟩
  decide

theorem cut_off_update_of_the_cli : ∃ s, (updates Nat).run onlyCli lost = some s ∧
    ∀ p ∈ s.exes, (∃ build, s.found p.exe = some (.whole build)) ∧
      (cleanupIn s.folder p.exe = s.found p.exe ∨ cleanupIn s.folder p.exe = some (.whole (s.builds p)) ∨
        p ∈ s.logged ∧ ∃ old, IsOldName p old ∧ cleanupIn s.folder old = s.found p.exe) := by
  obtain ⟨s, hrun, hphase, _⟩ := lost_run
  refine ⟨s, hrun, (cut_off_update (Weft.Machine.reachable_run (.init onlyCli_starts) hrun)).1 ?_⟩
  rw [hphase]
  exact fun hidle => by cases hidle

/-- A program that can neither be replaced nor put back stays missing, and
cleanup does not bring it back. -/
theorem cli_stays_missing :
    onlyCli.Starts ∧ ∃ s, (updates Nat).run onlyCli lost = some s ∧ Program.cli ∈ s.exes ∧
      cleanupIn s.folder Program.cli.exe = none := by
  obtain ⟨s, hrun, _, hexes, hmissing⟩ := lost_run
  exact ⟨onlyCli_starts, s, hrun, hexes ▸ List.mem_singleton.mpr rfl, hmissing⟩

end Steps

end Updater

end Hyperfetch
