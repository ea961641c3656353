import Hyperfetch.Targets.Plan

/-!
# What planning a download touches

A plan changes no path but a lock's, the `.part` of its own it finds stale, and an old download
of its own that it moves to its `.part`. What it goes past it leaves.
-/

namespace Hyperfetch.Targets

open Weft Function Repair

/-- Only what `own` holds of has changed. -/
def Leaves (own : Path → Prop) (disk after : Disk) : Prop := ∀ p, ¬own p → after p = disk p

theorem Leaves.refl (own : Path → Prop) (disk : Disk) : Leaves own disk disk := fun _ _ => rfl

theorem Leaves.trans {own : Path → Prop} {disk mid after : Disk} (h : Leaves own disk mid) (h' : Leaves own mid after) :
    Leaves own disk after := fun p hp => (h' p hp).trans (h p hp)

theorem Leaves.mono {own own' : Path → Prop} {disk after : Disk} (h : Leaves own disk after) (hsub : ∀ p, own p → own' p) :
    Leaves own' disk after := fun p hp => h p fun hown => hp (hsub p hown)

theorem leaves_update {own : Path → Prop} {path : Path} (disk : Disk) (entry : Option Entry) (h : own path) :
    Leaves own disk (update disk path entry) := by
  intro p hp
  rw [update_of_ne]
  rintro rfl
  exact hp h

/-- The paths beside `final` that a download of it works with. -/
def Beside (final p : Path) : Prop := p = partPath final ∨ p = stateFilePath (partPath final) ∨ p = lockPath final

theorem ne_beside (path : Path) (suffix : String) (h : suffix ≠ "") : path ≠ path.beside suffix := by
  intro heq
  have hlength : path.name.length = (path.beside suffix).name.length := by rw [← heq]
  rw [Path.beside, List.length_append] at hlength
  have hpos : 0 < suffix.toList.length := by
    rw [List.length_pos_iff]
    intro hnil
    exact h (String.toList_eq_nil_iff.mp hnil)
  omega

theorem not_beside_self (final : Path) : ¬Beside final final := by
  rintro (h | h | h)
  · exact ne_beside final ".part" (by decide) h
  all_goals
    have hlength := congrArg (·.name.length) h
    simp [partPath, stateFilePath, lockPath, Path.beside] at hlength

theorem ne_of_endings {a b : Path} {x y : Text} (ha : a.ending = some x) (hb : b.ending = some y) (hne : x ≠ y) : a ≠ b := by
  rintro rfl
  rw [ha] at hb
  exact hne (Option.some.inj hb)

namespace World

variable {w : World}

theorem remove_ok {path : Path} {disk after : Disk} (h : w.remove path disk = .ok after) : after = update disk path none := by
  unfold remove at h
  split at h
  · cases h
  · split at h
    · exact (Except.ok.inj h).symm
    · cases h

theorem rename_ok {source target : Path} {disk after : Disk} (h : w.rename source target disk = .ok after) :
    ∃ entry, disk source = some entry ∧ after = update (update disk source none) target (some entry) := by
  unfold rename at h
  split at h
  · cases h
  · split at h
    next entry hsource _ => exact ⟨entry, hsource, (Except.ok.inj h).symm⟩
    next bytes _ hsource _ => exact ⟨_, hsource, (Except.ok.inj h).symm⟩
    · cases h

theorem leaves_removed {own : Path → Prop} {path : Path} (disk : Disk) (h : own path) : Leaves own disk (w.removed path disk) := by
  unfold removed
  split
  next after hremoved =>
    rw [remove_ok hremoved]
    exact leaves_update disk none h
  next => exact Leaves.refl own disk

theorem leaves_claimed {own : Path → Prop} {final : Path} (disk : Disk) (h : own (lockPath final)) :
    Leaves own disk (claimed final disk) := leaves_update disk _ h

theorem leaves_released {own : Path → Prop} {final : Path} (disk : Disk) (h : own (lockPath final)) :
    Leaves own disk (w.released final disk) := leaves_removed disk h

theorem loadState_congr {path : Path} {disk disk' : Disk} (h : disk path = disk' path) : w.loadState path disk = w.loadState path disk' := by
  unfold loadState
  rw [h]

/-! ## Old downloads -/

/-- Under `candidate` is an old download of ours. -/
def Legacy (w : World) (ask : Ask) (candidate : Path) (disk : Disk) : Prop :=
  ∃ state, w.loadState (stateFilePath candidate) disk = some state ∧ ask.remote.size = some state.fileSize ∧
    (disk candidate).map (·.length) = some state.fileSize ∧ lists state ask.urls = true ∧
      validatorsCompatible state ask.remote = true

/-- What an old download of ours may be moved from and to. -/
def Moved (candidate p : Path) : Prop := Beside candidate p ∨ p = candidate ∨ p = stateFilePath candidate

theorem stateFilePath_ne_self (path : Path) : path ≠ stateFilePath path := ne_beside path ".hfstate" (by decide)

theorem partPath_ne_self (path : Path) : path ≠ partPath path := ne_beside path ".part" (by decide)

theorem partState_ne_self (path : Path) : path ≠ stateFilePath (partPath path) := fun h => not_beside_self path (.inr (.inl h))

/-- What `migrate_legacy` can do. -/
theorem migrateLegacy_cases (ask : Ask) (candidate : Path) (disk : Disk) :
    w.migrateLegacy candidate ask disk = (.ok false, disk) ∨
      Legacy w ask candidate disk ∧ Leaves (Moved candidate) disk (w.migrateLegacy candidate ask disk).2 ∧
        ((∃ e, (w.migrateLegacy candidate ask disk).1 = .error e) ∨
          (w.migrateLegacy candidate ask disk).1 = .ok true ∧ (w.migrateLegacy candidate ask disk).2 candidate = none ∧
            ((w.migrateLegacy candidate ask disk).2 (partPath candidate)).isSome = true ∧
            ∃ state, w.loadState (stateFilePath (partPath candidate)) (w.migrateLegacy candidate ask disk).2 = some state ∧
              lists state ask.urls = true) := by
  unfold migrateLegacy
  dsimp only
  cases hstate : w.loadState (stateFilePath candidate) disk with
  | none => exact .inl rfl
  | some state =>
    dsimp only
    split
    next hours =>
      rw [Bool.and_eq_true, Bool.and_eq_true, Bool.and_eq_true, beq_iff_eq, beq_iff_eq] at hours
      obtain ⟨⟨⟨hsize, hdisk⟩, hlists⟩, hvalid⟩ := hours
      refine .inr ⟨⟨state, hstate, hsize, hdisk, hlists, hvalid⟩, ?_⟩
      cases hmoved : w.rename candidate (partPath candidate) disk with
      | error e => exact ⟨Leaves.refl _ disk, .inl ⟨_, rfl⟩⟩
      | ok moved =>
        obtain ⟨entry, hentry, rfl⟩ := rename_ok hmoved
        have hfirst : Leaves (Moved candidate) disk (update (update disk candidate none) (partPath candidate) (some entry)) :=
          (leaves_update disk none (.inr (.inl rfl))).trans (leaves_update _ _ (.inl (.inl rfl)))
        dsimp only
        cases hmoved' : w.rename (stateFilePath candidate) (stateFilePath (partPath candidate))
            (update (update disk candidate none) (partPath candidate) (some entry)) with
        | error e => exact ⟨hfirst, .inl ⟨_, rfl⟩⟩
        | ok moved' =>
          obtain ⟨saved, hsaved, rfl⟩ := rename_ok hmoved'
          have hends : stateFilePath candidate ≠ partPath candidate := ne_of_endings (ending_stateFilePath _) (ending_partPath _) (by decide)
          have hends' : stateFilePath (partPath candidate) ≠ partPath candidate := (stateFilePath_ne_self _).symm
          rw [update_of_ne hends, update_of_ne (stateFilePath_ne_self candidate).symm] at hsaved
          dsimp only
          refine ⟨hfirst.trans ((leaves_update _ none (.inr (.inr rfl))).trans (leaves_update _ _ (.inl (.inr (.inl rfl))))),
            .inr ⟨rfl, ?_, ?_, state, ?_, hlists⟩⟩
          · rw [update_of_ne (partState_ne_self candidate), update_of_ne (stateFilePath_ne_self candidate),
              update_of_ne (partPath_ne_self candidate), update_self]
          · rw [update_of_ne hends'.symm, update_of_ne hends.symm, update_self]
            rfl
          · -- the state moved is the one that was read
            unfold loadState at hstate ⊢
            rw [update_self]
            rw [hsaved] at hstate
            exact hstate
    next => exact .inl rfl

/-! ## One name -/

/-- What is under `final`'s `.part` is ours, and of no use. -/
def Stale (w : World) (ask : Ask) (candidate : Path) (disk : Disk) : Prop :=
  (disk (partPath candidate)).isSome = true ∧
    ∃ state, w.loadState (stateFilePath (partPath candidate)) disk = some state ∧ lists state ask.urls = true ∧
      (sameFile state candidate ask disk && ask.remote.acceptsRanges) = false ∧
      (sameFile state candidate ask disk && !state.completedRanges.isEmpty && ask.remote.size != some ask.remote.prefetch) = false

/-- What a fetch starts from. -/
def Resumes (w : World) (ask : Ask) (candidate : Path) (after : Disk) : Option DownloadState → Prop
  | none => after (partPath candidate) = none
  | some state => w.loadState (stateFilePath (partPath candidate)) after = some state ∧ lists state ask.urls = true ∧
      sameFile state candidate ask after = true ∧ ask.remote.acceptsRanges = true

theorem lockPath_ne_stateFilePath (final path : Path) : lockPath final ≠ stateFilePath path :=
  ne_of_endings (ending_lockPath _) (ending_stateFilePath _) (by decide)

theorem lockPath_ne_partPath (final path : Path) : lockPath final ≠ partPath path :=
  ne_of_endings (ending_lockPath _) (ending_partPath _) (by decide)

theorem lockPath_ne_self (final : Path) : final ≠ lockPath final := fun h => not_beside_self final (.inr (.inr h))

theorem Legacy.congr {ask : Ask} {candidate : Path} {disk disk' : Disk} (h : Legacy w ask candidate disk)
    (hfile : disk' candidate = disk candidate) (hstate : disk' (stateFilePath candidate) = disk (stateFilePath candidate)) :
    Legacy w ask candidate disk' := by
  obtain ⟨state, hload, hrest⟩ := h
  exact ⟨state, (loadState_congr hstate).trans hload, by rw [hfile]; exact hrest⟩

theorem sameFile_congr {state : DownloadState} {ask : Ask} {candidate : Path} {disk disk' : Disk}
    (h : disk' (partPath candidate) = disk (partPath candidate)) : sameFile state candidate ask disk' = sameFile state candidate ask disk := by
  unfold sameFile
  rw [h]

theorem Stale.congr {ask : Ask} {candidate : Path} {disk disk' : Disk} (h : Stale w ask candidate disk)
    (hpart : disk' (partPath candidate) = disk (partPath candidate))
    (hstate : disk' (stateFilePath (partPath candidate)) = disk (stateFilePath (partPath candidate))) : Stale w ask candidate disk' := by
  obtain ⟨hthere, state, hload, hlists, hno, hno'⟩ := h
  refine ⟨by rw [hpart]; exact hthere, state, (loadState_congr hstate).trans hload, hlists, ?_, ?_⟩
  · rw [sameFile_congr hpart]
    exact hno
  · rw [sameFile_congr hpart]
    exact hno'

/-- What becomes of a claimed name nothing keeps. -/
inductive AtPart (w : World) (ask : Ask) (candidate : Path) (disk : Disk) : Option (Except String Plan) → Disk → Prop
  | others (hthere : (disk (partPath candidate)).isSome = true)
      (hothers : ∀ state, w.loadState (stateFilePath (partPath candidate)) disk = some state → lists state ask.urls = false) :
      AtPart w ask candidate disk none disk
  | fails (e : String) : AtPart w ask candidate disk (some (.error e)) disk
  | fetches (resume : Option DownloadState) (after : Disk)
      (htouched : Leaves (fun p => Stale w ask candidate disk ∧ Beside candidate p) disk after)
      (hresume : Resumes w ask candidate after resume) : AtPart w ask candidate disk (some (.ok (.fetch candidate resume))) after

theorem atPart_spec (ask : Ask) (candidate : Path) (disk : Disk) :
    AtPart w ask candidate disk (w.atPart candidate ask disk).1 (w.atPart candidate ask disk).2 := by
  unfold atPart
  dsimp only
  split
  next hthere =>
    cases hload : w.loadState (stateFilePath (partPath candidate)) disk with
    | none =>
      refine .others hthere fun state hstate => ?_
      rw [hload] at hstate
      cases hstate
    | some state =>
      dsimp only
      split
      next hlists =>
        cases hsame : sameFile state candidate ask disk && ask.remote.acceptsRanges with
        | true =>
          obtain ⟨hsame, hranges⟩ := Bool.and_eq_true_iff.mp hsame
          exact .fetches _ _ (Leaves.refl _ disk) ⟨hload, hlists, hsame, hranges⟩
        | false =>
          simp only [Bool.false_eq_true, if_false]
          split
          · exact .fails _
          next hstale =>
            have hours : Stale w ask candidate disk := ⟨hthere, state, hload, hlists, hsame, Bool.eq_false_iff.mpr hstale⟩
            cases hremoved : w.remove (partPath candidate) disk with
            | error e => exact .fails _
            | ok after =>
              rw [remove_ok hremoved]
              refine .fetches none _ ((leaves_update disk none ⟨hours, .inl rfl⟩).trans
                (leaves_removed _ ⟨hours, .inr (.inl rfl)⟩)) ?_
              have hkept : Leaves (· = stateFilePath (partPath candidate)) (update disk (partPath candidate) none)
                  (w.removed (stateFilePath (partPath candidate)) (update disk (partPath candidate) none)) := leaves_removed _ rfl
              exact (hkept _ (stateFilePath_ne_self _)).trans (update_self _ _ _)
      next hlists =>
        refine .others hthere fun other hother => ?_
        rw [hload] at hother
        rw [← Option.some.inj hother]
        exact Bool.eq_false_iff.mpr hlists
  next hnone => exact .fetches none _ (Leaves.refl _ disk) (Option.not_isSome_iff_eq_none.mp hnone)

/-- What keeps a plan from a name. -/
def Blocked (w : World) (candidate : Path) (disk : Disk) : Prop :=
  w.claim candidate = .ok false ∨ (disk candidate).isSome = true ∨ (disk (partPath candidate)).isSome = true

/-- Whether a claimed name is kept from us. -/
inductive InTheWay (w : World) (ask : Ask) (candidate : Path) (replacing : Bool) (disk : Disk) : Except String Bool → Disk → Prop
  | kept (hthere : (disk candidate).isSome = true) : InTheWay w ask candidate replacing disk (.ok true) disk
  | free (hfree : replacing = true ∨ disk candidate = none) : InTheWay w ask candidate replacing disk (.ok false) disk
  | moved (after : Disk) (hlegacy : Legacy w ask candidate disk) (htouched : Leaves (Moved candidate) disk after)
      (hgone : after candidate = none) (hthere : (after (partPath candidate)).isSome = true)
      (hours : ∃ state, w.loadState (stateFilePath (partPath candidate)) after = some state ∧ lists state ask.urls = true) :
      InTheWay w ask candidate replacing disk (.ok false) after
  | fails (e : String) (after : Disk) (hlegacy : Legacy w ask candidate disk) (htouched : Leaves (Moved candidate) disk after) :
      InTheWay w ask candidate replacing disk (.error e) after

theorem inTheWay_spec (ask : Ask) (candidate : Path) (replacing : Bool) (disk : Disk) :
    InTheWay w ask candidate replacing disk (w.inTheWay candidate replacing ask disk).1 (w.inTheWay candidate replacing ask disk).2 := by
  unfold inTheWay
  split
  next hin =>
    obtain ⟨hthere, -⟩ := Bool.and_eq_true_iff.mp hin
    split
    next => exact .kept hthere
    next =>
      dsimp only
      rcases @migrateLegacy_cases w ask candidate disk with hsame | ⟨hlegacy, htouched, ⟨e, he⟩ | ⟨hok, hgone, hpart, hours⟩⟩
      · rw [hsame]
        exact .kept hthere
      · rw [he]
        exact .fails e _ hlegacy htouched
      · rw [hok]
        exact .moved _ hlegacy htouched hgone hpart hours
  next hin =>
    refine .free ?_
    cases replacing with
    | true => exact .inl rfl
    | false => exact .inr (by simpa using hin)

/-- What becomes of a claimed name. -/
inductive WithClaim (w : World) (ask : Ask) (candidate : Path) (replacing : Bool) (disk : Disk) :
    Option (Except String Plan) → Disk → Prop
  | next (hblocked : (disk candidate).isSome = true ∨ (disk (partPath candidate)).isSome = true) :
      WithClaim w ask candidate replacing disk none disk
  | fails (e : String) (after : Disk) (htouched : Leaves (fun p => Legacy w ask candidate disk ∧ Moved candidate p) disk after) :
      WithClaim w ask candidate replacing disk (some (.error e)) after
  | fetches (resume : Option DownloadState) (after : Disk)
      (htouched : Leaves (fun p => Stale w ask candidate disk ∧ Beside candidate p ∨ Legacy w ask candidate disk ∧ Moved candidate p)
        disk after)
      (hfree : replacing = true ∨ after candidate = none) (hresume : Resumes w ask candidate after resume) :
      WithClaim w ask candidate replacing disk (some (.ok (.fetch candidate resume))) after

theorem withClaim_spec (ask : Ask) (candidate : Path) (replacing : Bool) (disk : Disk) :
    WithClaim w ask candidate replacing disk (w.withClaim candidate replacing ask disk).1 (w.withClaim candidate replacing ask disk).2 := by
  have hway := @inTheWay_spec w ask candidate replacing disk
  unfold withClaim
  generalize w.inTheWay candidate replacing ask disk = way at hway
  obtain ⟨kept, mid⟩ := way
  cases hway with
  | kept hthere => exact .next (.inl hthere)
  | fails e after hlegacy htouched => exact .fails e mid (htouched.mono fun p hp => ⟨hlegacy, hp⟩)
  | free hfree =>
    have hpart := @atPart_spec w ask candidate mid
    show WithClaim w ask candidate replacing mid (w.atPart candidate ask mid).1 (w.atPart candidate ask mid).2
    generalize w.atPart candidate ask mid = out at hpart
    obtain ⟨outcome, after⟩ := out
    cases hpart with
    | others hthere _ => exact .next (.inr hthere)
    | fails e => exact .fails e _ (Leaves.refl _ _)
    | fetches resume after htouched hresume =>
      refine .fetches resume _ (htouched.mono fun p hp => .inl hp) ?_ hresume
      rwa [htouched candidate fun h => not_beside_self candidate h.2]
  | moved after hlegacy htouched hgone hthere hours =>
    have hpart := @atPart_spec w ask candidate mid
    show WithClaim w ask candidate replacing disk (w.atPart candidate ask mid).1 (w.atPart candidate ask mid).2
    generalize w.atPart candidate ask mid = out at hpart
    obtain ⟨outcome, after⟩ := out
    have hmid : Leaves (fun p => Legacy w ask candidate disk ∧ Moved candidate p) disk mid := htouched.mono fun p hp => ⟨hlegacy, hp⟩
    cases hpart with
    | others _ hothers =>
      -- what was moved there is ours
      obtain ⟨state, hload, hlists⟩ := hours
      rw [hothers state hload] at hlists
      cases hlists
    | fails e => exact .fails e _ hmid
    | fetches resume after htouched' hresume =>
      have hafter := hmid.trans (htouched'.mono fun p hp => ⟨hlegacy, .inl hp.2⟩)
      refine .fetches resume _ (hafter.mono fun p hp => .inr hp) (.inr ?_) hresume
      exact (htouched' candidate fun h => not_beside_self candidate h.2).trans hgone

/-- What becomes of the `n`th name. -/
inductive Went (w : World) (ask : Ask) (n : Nat) (disk : Disk) : Option (Except String Plan) → Disk → Prop
  | next (after : Disk) (hblocked : Blocked w (numbered ask.base n) disk)
      (htouched : Leaves (· = lockPath (numbered ask.base n)) disk after) : Went w ask n disk none after
  | done (hdone : w.alreadyDownloaded (numbered ask.base n) ask disk = true) :
      Went w ask n disk (some (.ok (.alreadyDone (numbered ask.base n)))) disk
  | fails (e : String) (after : Disk)
      (htouched : Leaves (fun p => p = lockPath (numbered ask.base n) ∨ w.claim (numbered ask.base n) = .ok true ∧
        Legacy w ask (numbered ask.base n) disk ∧ Moved (numbered ask.base n) p) disk after) : Went w ask n disk (some (.error e)) after
  | fetches (resume : Option DownloadState) (after : Disk) (hclaim : w.claim (numbered ask.base n) = .ok true)
      (htouched : Leaves (fun p => p = lockPath (numbered ask.base n) ∨
        Stale w ask (numbered ask.base n) disk ∧ Beside (numbered ask.base n) p ∨
          Legacy w ask (numbered ask.base n) disk ∧ Moved (numbered ask.base n) p) disk after)
      (hfree : (ask.replace = true ∧ n = 0) ∨ after (numbered ask.base n) = none)
      (hresume : Resumes w ask (numbered ask.base n) after resume) :
      Went w ask n disk (some (.ok (.fetch (numbered ask.base n) resume))) after

theorem planOne_spec (ask : Ask) (n : Nat) (disk : Disk) : Went w ask n disk (w.planOne ask n disk).1 (w.planOne ask n disk).2 := by
  unfold planOne
  dsimp only
  split
  next hdone => exact .done (Bool.and_eq_true_iff.mp hdone).2
  next =>
    split
    next e _ => exact .fails e disk (Leaves.refl _ disk)
    next hclaim => exact .next disk (.inl hclaim) (Leaves.refl _ disk)
    next hclaim =>
      have hspec := @withClaim_spec w ask (numbered ask.base n) (ask.replace && n == 0) (claimed (numbered ask.base n) disk)
      have hlock : Leaves (· = lockPath (numbered ask.base n)) disk (claimed (numbered ask.base n) disk) := leaves_claimed disk rfl
      -- what the claim made is no part of what is looked at
      have hself := hlock (numbered ask.base n) (lockPath_ne_self _)
      have hpart := hlock (partPath (numbered ask.base n)) (lockPath_ne_partPath _ _).symm
      have hstate := fun path => hlock (stateFilePath path) (lockPath_ne_stateFilePath _ path).symm
      have hlegacy : Legacy w ask (numbered ask.base n) (claimed (numbered ask.base n) disk) → Legacy w ask (numbered ask.base n) disk :=
        fun h => h.congr hself.symm (hstate _).symm
      have hstale : Stale w ask (numbered ask.base n) (claimed (numbered ask.base n) disk) → Stale w ask (numbered ask.base n) disk :=
        fun h => h.congr hpart.symm (hstate _).symm
      generalize w.withClaim (numbered ask.base n) (ask.replace && n == 0) ask (claimed (numbered ask.base n) disk) = out at hspec
      obtain ⟨outcome, after⟩ := out
      cases hspec with
      | next hblocked =>
        refine .next _ ?_ (hlock.trans (leaves_released _ rfl))
        rw [hself, hpart] at hblocked
        exact .inr hblocked
      | fails e after htouched =>
        refine .fails e _ ((hlock.mono fun p hp => .inl hp).trans (Leaves.trans ?_ (leaves_released _ (.inl rfl))))
        exact htouched.mono fun p hp => .inr ⟨hclaim, hlegacy hp.1, hp.2⟩
      | fetches resume after htouched hfree hresume =>
        refine .fetches resume _ hclaim ((hlock.mono fun p hp => .inl hp).trans ?_) ?_ hresume
        · refine htouched.mono fun p hp => .inr (hp.imp ?_ ?_)
          · exact fun hp => ⟨hstale hp.1, hp.2⟩
          · exact fun hp => ⟨hlegacy hp.1, hp.2⟩
        · rwa [Bool.and_eq_true, beq_iff_eq] at hfree

end World

end Hyperfetch.Targets
