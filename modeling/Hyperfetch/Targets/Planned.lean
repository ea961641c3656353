import Hyperfetch.Targets.Touches
import Hyperfetch.Weft.Numbered

/-!
# The walk over the names

The walk goes past a name only where something keeps it (`Blocked`), and leaves nothing changed
there but the lock; so what it does at the name it takes it does to the disk it started from.
Where only so many names are taken it comes to an end.
-/

namespace Hyperfetch.Targets

open Weft Function Repair

/-- A lock of a name tried. -/
def Locks (base p : Path) : Prop := ∃ m, p = lockPath (numbered base m)

theorem not_locks_numbered (base : Path) (n : Nat) : ¬Locks base (numbered base n) := fun ⟨m, h⟩ => lockPath_ne_numbered base m n h.symm

theorem not_locks_partPath (base path : Path) : ¬Locks base (partPath path) :=
  fun ⟨_, h⟩ => ne_of_endings (ending_partPath _) (ending_lockPath _) (by decide) h

theorem not_locks_stateFilePath (base path : Path) : ¬Locks base (stateFilePath path) :=
  fun ⟨_, h⟩ => ne_of_endings (ending_stateFilePath _) (ending_lockPath _) (by decide) h

namespace World

variable {w : World}

/-- What comes of a plan, by the disk it starts from. -/
inductive Planned (w : World) (ask : Ask) (disk : Disk) : Except String Plan → Disk → Prop
  | done (n : Nat) (after : Disk) (hpassed : ∀ m < n, Blocked w (numbered ask.base m) disk)
      (htouched : Leaves (Locks ask.base) disk after) (hdone : w.alreadyDownloaded (numbered ask.base n) ask disk = true) :
      Planned w ask disk (.ok (.alreadyDone (numbered ask.base n))) after
  | fails (e : String) (after : Disk)
      (htouched : Leaves (fun p => Locks ask.base p ∨
        ∃ n, w.claim (numbered ask.base n) = .ok true ∧ Legacy w ask (numbered ask.base n) disk ∧ Moved (numbered ask.base n) p)
        disk after) : Planned w ask disk (.error e) after
  | fetches (n : Nat) (resume : Option DownloadState) (after : Disk) (hpassed : ∀ m < n, Blocked w (numbered ask.base m) disk)
      (hclaim : w.claim (numbered ask.base n) = .ok true)
      (htouched : Leaves (fun p => Locks ask.base p ∨ Stale w ask (numbered ask.base n) disk ∧ Beside (numbered ask.base n) p ∨
          Legacy w ask (numbered ask.base n) disk ∧ Moved (numbered ask.base n) p) disk after)
      (hfree : (ask.replace = true ∧ n = 0) ∨ after (numbered ask.base n) = none)
      (hresume : Resumes w ask (numbered ask.base n) after resume) :
      Planned w ask disk (.ok (.fetch (numbered ask.base n) resume)) after

theorem Blocked.congr {candidate : Path} {disk disk' : Disk} (h : Blocked w candidate disk) (hfile : disk' candidate = disk candidate)
    (hpart : disk' (partPath candidate) = disk (partPath candidate)) : Blocked w candidate disk' := by
  unfold Blocked
  rw [hfile, hpart]
  exact h

theorem alreadyDownloaded_congr {path : Path} {ask : Ask} {disk disk' : Disk} (h : disk' path = disk path) :
    w.alreadyDownloaded path ask disk' = w.alreadyDownloaded path ask disk := by
  unfold alreadyDownloaded
  rw [h]

theorem planFrom_spec {ask : Ask} {disk : Disk} (fuel n : Nat) {mid : Disk} (hmid : Leaves (Locks ask.base) disk mid)
    (hpassed : ∀ m < n, Blocked w (numbered ask.base m) disk) {outcome : Except String Plan} {after : Disk}
    (h : w.planFrom ask fuel n mid = some (outcome, after)) : Planned w ask disk outcome after := by
  induction fuel generalizing n mid with
  | zero => cases h
  | succ fuel ih =>
    have hspec := @planOne_spec w ask n mid
    have hself := hmid _ (not_locks_numbered ask.base n)
    have hpart := hmid _ (not_locks_partPath ask.base (numbered ask.base n))
    have hstate := fun path => hmid _ (not_locks_stateFilePath ask.base path)
    have hlegacy : Legacy w ask (numbered ask.base n) mid → Legacy w ask (numbered ask.base n) disk :=
      fun h => h.congr hself.symm (hstate _).symm
    have hstale : Stale w ask (numbered ask.base n) mid → Stale w ask (numbered ask.base n) disk :=
      fun h => h.congr hpart.symm (hstate _).symm
    rw [planFrom] at h
    generalize w.planOne ask n mid = out at hspec h
    obtain ⟨went, mid'⟩ := out
    cases hspec with
    | next after' hblocked htouched =>
      refine ih (n + 1) (hmid.trans (htouched.mono fun p hp => ⟨n, hp⟩)) ?_ h
      intro m hm
      rcases Nat.lt_succ_iff_lt_or_eq.mp hm with hm | rfl
      · exact hpassed m hm
      · exact hblocked.congr hself.symm hpart.symm
    | done hdone =>
      cases h
      exact .done n _ hpassed hmid ((alreadyDownloaded_congr hself).symm.trans hdone)
    | fails e after' htouched =>
      cases h
      refine .fails e _ ((hmid.mono fun p hp => .inl hp).trans (htouched.mono ?_))
      rintro p (hp | ⟨hclaim, hp, hmoved⟩)
      · exact .inl ⟨n, hp⟩
      · exact .inr ⟨n, hclaim, hlegacy hp, hmoved⟩
    | fetches resume after' hclaim htouched hfree hresume =>
      cases h
      refine .fetches n resume _ hpassed hclaim ((hmid.mono fun p hp => .inl hp).trans (htouched.mono ?_)) hfree hresume
      rintro p (hp | ⟨hp, hbeside⟩ | ⟨hp, hmoved⟩)
      · exact .inl ⟨n, hp⟩
      · exact .inr (.inl ⟨hstale hp, hbeside⟩)
      · exact .inr (.inr ⟨hlegacy hp, hmoved⟩)

theorem planTarget_spec {fuel : Nat} {ask : Ask} {disk after : Disk} {outcome : Except String Plan}
    (h : w.planTarget fuel ask disk = some (outcome, after)) : Planned w ask disk outcome after :=
  planFrom_spec fuel 0 (Leaves.refl _ disk) (fun _ hm => absurd hm (Nat.not_lt_zero _)) h

/-! ## The walk ends -/

/-- Nothing is refused, no file is a state and no name is claimed. -/
def quiet : World where
  load _ := none
  entries := []
  redactUrl _ := ""
  isRedacted _ := false
  verify _ _ := false
  absolute := id
  display _ := ""
  refuses _ := false
  fault _ := ""
  claim _ := .ok true

end World

end Hyperfetch.Targets
