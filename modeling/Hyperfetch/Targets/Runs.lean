import Hyperfetch.Targets.Planned
import Mathlib.Logic.Relation

/-!
# Many downloads in one folder

Any number of downloads, of this process and others, plan, write, end and are discarded in any
order. Each of these is one step but writing, which is many; what a claim is granted on is on no
download that runs (`Claim`). The names asked for are ordinary ones, as are the files looked at:
a download saved as `x.part` could be taken for one of `x`.

Files are also replaced, where a download is asked to replace what it is saved as.
-/

namespace Hyperfetch.Targets

open Weft Function Repair

/-- What the downloads work with. -/
structure Site where
  disk : Disk
  /-- The names claimed, each with whether its file is replaced. -/
  live : List (Path × Bool)

/-- The names claimed once a plan is made. -/
def Plan.claims (plan : Except String Plan) (ask : Ask) (live : List (Path × Bool)) : List (Path × Bool) :=
  match plan with
  | .ok (.fetch final _) => (final, ask.replace && final == ask.base) :: live
  | _ => live

/-- A claim is granted where no download that runs has one. -/
def Grants (w : World) (live : List (Path × Bool)) : Prop := ∀ final, w.claim final = .ok true → final ∉ live.map Prod.fst

variable (load : List UInt8 → Option DownloadState) (replaceable : Path → Prop)

/-- A step, and the download that takes it. -/
inductive Step : Option Path → Site → Site → Prop
  | plan {site : Site} (w : World) (hload : w.load = load) (ask : Ask) (hname : Ordinary ask.base)
      (hreplace : ask.replace = true → replaceable ask.base) (hgrants : Grants w site.live) {fuel : Nat}
      {outcome : Except String Plan} {after : Disk} (h : w.planTarget fuel ask site.disk = some (outcome, after)) :
      Step none site ⟨after, Plan.claims outcome ask site.live⟩
  /-- It writes its `.part`, or a state. -/
  | write {site : Site} {d : Path × Bool} (hd : d ∈ site.live) {p : Path} (hp : p ∈ World.leftovers d.1) (entry : Option Entry) :
      Step (some d.1) site ⟨update site.disk p entry, site.live⟩
  | finish {site : Site} {d : Path × Bool} (hd : d ∈ site.live) (w : World) {fuel : Nat} {byContent : Bool} {finished : World.Finished}
      {result : Except String Path} {after : Disk} (h : w.finalize fuel d.1 byContent finished d.2 site.disk = some (result, after)) :
      Step (some d.1) site ⟨after, site.live.erase d⟩
  /-- It is stopped, or fails. -/
  | stop {site : Site} {d : Path × Bool} (hd : d ∈ site.live) (w : World) : Step (some d.1) site ⟨w.released d.1 site.disk, site.live.erase d⟩
  /-- Its process ends. -/
  | crash {site : Site} {d : Path × Bool} (hd : d ∈ site.live) : Step (some d.1) site ⟨site.disk, site.live.erase d⟩
  | discard {site : Site} (w : World) (final : Path) (hname : Ordinary final) (hgrants : Grants w site.live) :
      Step none site ⟨(w.discardPartial final site.disk).2, site.live⟩

/-- The downloads that run have ordinary names, one each. -/
structure Sound (site : Site) : Prop where
  ordinary : ∀ d ∈ site.live, Ordinary d.1
  replaced : ∀ d ∈ site.live, d.2 = true → replaceable d.1
  once : (site.live.map Prod.fst).Nodup

/-! ## The paths beside a name -/

/-- A path kept beside a name. -/
def Internal (p : Path) : Prop := ∃ final, Ordinary final ∧ (p ∈ World.leftovers final ∨ p = lockPath final)

theorem ending_leftovers {final p : Path} (h : p ∈ World.leftovers final) :
    p.ending = some "part".toList ∨ p = stateFilePath (partPath final) ∨ p.ending = some "hlsstate".toList ∨ p.ending = some "tmp".toList := by
  simp only [World.leftovers, List.mem_cons, List.not_mem_nil, or_false] at h
  rcases h with rfl | rfl | rfl | rfl | rfl
  · exact .inl (ending_partPath final)
  · exact .inr (.inl rfl)
  · exact .inr (.inr (.inl (ending_beside _ rfl (by decide))))
  · refine .inr (.inr (.inr (@ending_of _ ((partPath final).name ++ ".hfstate".toList) _ ?_ (by decide))))
    rw [List.append_assoc]
    rfl
  · refine .inr (.inr (.inr (@ending_of _ ((partPath final).name ++ ".hlsstate".toList) _ ?_ (by decide))))
    rw [List.append_assoc]
    rfl

theorem Internal.ending {p : Path} (h : Internal p) : ∃ ext ∈ kept, p.ending = some ext := by
  obtain ⟨final, -, hp | rfl⟩ := h
  · rcases ending_leftovers hp with h | rfl | h | h
    · exact ⟨_, by decide, h⟩
    · exact ⟨_, by decide, ending_stateFilePath _⟩
    · exact ⟨_, by decide, h⟩
    · exact ⟨_, by decide, h⟩
  · exact ⟨_, by decide, ending_lockPath final⟩

theorem Internal.not_ordinary {p : Path} (h : Internal p) : ¬Ordinary p := by
  obtain ⟨ext, hkept, hending⟩ := h.ending
  exact fun hord => hord.ne hending hkept rfl

/-- The state an ordinary file would have beside it in the old layout is none of these. -/
theorem Internal.ne_state {p final : Path} (h : Internal p) (hfinal : Ordinary final) : p ≠ stateFilePath final := by
  rintro rfl
  obtain ⟨other, -, hp | hp⟩ := h
  · have hstate : stateFilePath final = stateFilePath (partPath other) := by
      rcases ending_leftovers hp with h | h | h | h
      · exact absurd (Option.some.inj ((ending_stateFilePath final).symm.trans h)) (by decide)
      · exact h
      · exact absurd (Option.some.inj ((ending_stateFilePath final).symm.trans h)) (by decide)
      · exact absurd (Option.some.inj ((ending_stateFilePath final).symm.trans h)) (by decide)
    exact hfinal.ne (ending_partPath other) (by decide) (stateFilePath_inj hstate)
  · exact ne_of_endings (ending_stateFilePath _) (ending_lockPath _) (by decide) hp

theorem internal_of_beside {final p : Path} (hfinal : Ordinary final) (h : Beside final p) : Internal p := by
  refine ⟨final, hfinal, ?_⟩
  rcases h with rfl | rfl | rfl
  · exact .inl (by simp [World.leftovers])
  · exact .inl (by simp [World.leftovers, stateFilePath])
  · exact .inr rfl

/-- A text that ends in two ways. -/
theorem suffixes_of_eq {x y s t : Text} (h : x ++ s = y ++ t) : s <:+ t ∨ t <:+ s := by
  have hs : s <:+ x ++ s := List.suffix_append _ _
  have ht : t <:+ x ++ s := h ▸ List.suffix_append _ _
  rcases Nat.le_total s.length t.length with hle | hle
  · exact .inl (List.suffix_of_suffix_length_le hs ht hle)
  · exact .inr (List.suffix_of_suffix_length_le ht hs hle)

/-- The suffixes of what is kept beside a `.part`. -/
def suffixes : List String := ["", ".hfstate", ".hlsstate", ".hfstate.tmp", ".hlsstate.tmp"]

theorem mem_leftovers {final p : Path} : p ∈ World.leftovers final ↔ ∃ s ∈ suffixes, p = (partPath final).beside s := by
  have hempty : partPath final = (partPath final).beside "" := by
    rw [Path.beside]
    simp
  simp only [World.leftovers, suffixes, List.mem_cons, List.not_mem_nil, or_false, exists_eq_or_imp, exists_eq_left]
  rw [← hempty]

/-- No path is kept beside two names. -/
theorem leftovers_apart {a b p : Path} (ha : p ∈ World.leftovers a) (hb : p ∈ World.leftovers b) : a = b := by
  obtain ⟨s, hs, rfl⟩ := mem_leftovers.mp ha
  obtain ⟨t, ht, heq⟩ := mem_leftovers.mp hb
  have hname : a.name ++ (".part".toList ++ s.toList) = b.name ++ (".part".toList ++ t.toList) := by
    rw [← List.append_assoc, ← List.append_assoc]
    exact congrArg Path.name heq
  have hone : ∀ s ∈ suffixes, ∀ t ∈ suffixes, ".part".toList ++ s.toList <:+ ".part".toList ++ t.toList → s = t := by decide
  have hst : s = t := by
    rcases suffixes_of_eq hname with h | h
    · exact hone s hs t ht h
    · exact (hone t ht s hs h).symm
  subst hst
  exact partPath_inj (beside_inj heq)

/-! ## The end of a download -/

namespace World

/-- The extensions a file's contents can show. -/
theorem extensionFor_mem {head : List UInt8} {ext : String} (h : extensionFor head = some ext) :
    ext ∈ ["epub", "zip", "mov", "m4a", "avif", "heic", "mp4", "webm", "mkv", "webp", "wav", "avi"] ++ magicTypes.map (·.2) := by
  unfold extensionFor at h
  dsimp only at h
  split_ifs at h
  all_goals first
    | (cases h; decide)
    | cases h
    | (obtain ⟨type, htype, rfl⟩ := Option.map_eq_some_iff.mp h
       exact List.mem_append_right _ (List.mem_map_of_mem (List.mem_of_find?_eq_some htype)))

theorem ordinary_namedByContent {name : Path} (h : Ordinary name) (entry : Option Entry) : Ordinary (namedByContent entry name) := by
  unfold namedByContent
  split
  · exact h
  · split
    next bytes =>
      split
      next ext hext =>
        split
        · exact h
        · have hshown : ∀ ext ∈ ["epub", "zip", "mov", "m4a", "avif", "heic", "mp4", "webm", "mkv", "webp", "wav", "avi"] ++
              magicTypes.map (·.2), '.' ∉ ext.toList ∧ ext.toList ∉ kept := by decide
          obtain ⟨hdot, hnot⟩ := hshown ext (extensionFor_mem hext)
          intro last hlast
          have hending : Path.ending { name with name := name.name ++ '.' :: ext.toList } = some ext.toList := ending_of rfl hdot
          rw [hending, Option.mem_some_iff] at hlast
          rwa [← hlast]
      next => exact h
    next => exact h

theorem freePath_some {fuel : Nat} {base c : Path} {disk : Disk} (h : freePath fuel base disk = some c) :
    ∃ n, c = numbered base n ∧ disk c = none := by
  have hfree := List.find?_some h
  obtain ⟨n, -, rfl⟩ := List.mem_map.mp (List.mem_of_find?_eq_some h)
  rw [Bool.and_eq_true, Bool.and_eq_true] at hfree
  exact ⟨n, rfl, Option.isNone_iff_eq_none.mp hfree.1.1⟩

variable {w : World}

/-- Where a finished download may go. -/
def Target (final : Path) (replace : Bool) (disk : Disk) (p : Path) : Prop :=
  Ordinary p ∧ (disk p = none ∨ replace = true ∧ p = final)

/-- A download that ends changes its own files and what it is saved as, which is what it wrote. -/
theorem finalize_spec {fuel : Nat} {final : Path} {byContent : Bool} {finished : Finished} {replace : Bool} {disk after : Disk}
    {result : Except String Path} (hfinal : Ordinary final)
    (h : w.finalize fuel final byContent finished replace disk = some (result, after)) :
    Leaves (fun p => Beside final p ∨ Target final replace disk p) disk after ∧
      ∀ target, result = .ok target → Target final replace disk target ∧ after target = disk (partPath final) := by
  have hrelease : ∀ mid, Leaves (fun p => Beside final p ∨ Target final replace disk p) mid (w.released final mid) :=
    fun mid => leaves_released mid (.inl (.inr (.inr rfl)))
  have hstate : ∀ mid, Leaves (fun p => Beside final p ∨ Target final replace disk p) mid (w.removed (stateFilePath (partPath final)) mid) :=
    fun mid => leaves_removed mid (.inl (.inr (.inl rfl)))
  unfold finalize at h
  cases finished with
  | wrong e =>
    obtain ⟨rfl, rfl⟩ := Prod.mk.inj (Option.some.inj h)
    exact ⟨(leaves_removed disk (.inl (.inl rfl))).trans ((hstate _).trans (hrelease _)), fun target h => nomatch h⟩
  | unfinished e =>
    obtain ⟨rfl, rfl⟩ := Prod.mk.inj (Option.some.inj h)
    exact ⟨hrelease disk, fun target h => nomatch h⟩
  | right =>
    dsimp only at h
    have hname : Ordinary (if byContent then namedByContent (disk (partPath final)) final else final) := by
      split
      · exact ordinary_namedByContent hfinal _
      · exact hfinal
    generalize (if byContent then namedByContent (disk (partPath final)) final else final) = name at h hname
    obtain ⟨target, htarget, hmoved⟩ := Option.map_eq_some_iff.mp h
    have hgood : Target final replace disk target := by
      split at htarget
      next =>
        obtain ⟨n, rfl, hfree⟩ := freePath_some htarget
        exact ⟨hname.numbered n, .inl hfree⟩
      next hwhole =>
        obtain rfl := Option.some.inj htarget
        refine ⟨hname, ?_⟩
        cases hthere : disk name with
        | none => exact .inl rfl
        | some entry =>
          rw [hthere] at hwhole
          right
          simpa using hwhole
    split at hmoved
    · obtain ⟨rfl, rfl⟩ := Prod.mk.inj hmoved
      exact ⟨hrelease disk, fun target h => nomatch h⟩
    · split at hmoved
      next e _ =>
        obtain ⟨rfl, rfl⟩ := Prod.mk.inj hmoved
        exact ⟨hrelease disk, fun target h => nomatch h⟩
      next mid hmid =>
        obtain ⟨rfl, rfl⟩ := Prod.mk.inj hmoved
        obtain ⟨entry, hentry, rfl⟩ := rename_ok hmid
        have hrename : Leaves (fun p => Beside final p ∨ Target final replace disk p) disk
            (update (update disk (partPath final) none) target (some entry)) :=
          (leaves_update disk none (.inl (.inl rfl))).trans (leaves_update _ _ (.inr hgood))
        refine ⟨hrename.trans ((hstate _).trans (hrelease _)), ?_⟩
        intro saved hsaved
        obtain rfl := Except.ok.inj hsaved
        refine ⟨hgood, ?_⟩
        have hapart : ¬Beside final target := fun hbeside => (internal_of_beside hfinal hbeside).not_ordinary hgood.1
        have hlast : Leaves (Beside final) (update (update disk (partPath final) none) target (some entry))
            (w.released final (w.removed (stateFilePath (partPath final)) (update (update disk (partPath final) none) target (some entry)))) :=
          (leaves_removed _ (.inr (.inl rfl))).trans (leaves_released _ (.inr (.inr rfl)))
        rw [hlast target hapart, update_self, hentry]

/-- Discarding changes what is kept beside the name, where it is claimed. -/
theorem discardPartial_leaves (final : Path) (disk : Disk) :
    Leaves (fun p => w.claim final = .ok true ∧ (p ∈ leftovers final ∨ p = lockPath final)) disk (w.discardPartial final disk).2 := by
  have heach : ∀ (paths : List Path) (removed : Nat) (mid : Disk), Leaves (· ∈ paths) mid (w.removeEach paths removed mid).2 := by
    intro paths
    induction paths with
    | nil => exact fun removed mid => Leaves.refl _ mid
    | cons path rest ih =>
      intro removed mid
      rw [removeEach]
      split
      · exact (ih removed mid).mono fun p hp => List.mem_cons_of_mem _ hp
      · split
        next after hafter =>
          rw [remove_ok hafter]
          exact (leaves_update mid none List.mem_cons_self).trans ((ih _ _).mono fun p hp => List.mem_cons_of_mem _ hp)
        next => exact Leaves.refl _ mid
  unfold discardPartial
  split
  · exact Leaves.refl _ disk
  · exact Leaves.refl _ disk
  next hclaim =>
    refine (leaves_claimed disk ⟨hclaim, .inr rfl⟩).trans (Leaves.trans ?_ (leaves_released _ ⟨hclaim, .inr rfl⟩))
    exact (heach (leftovers final) 0 _).mono fun p hp => ⟨hclaim, .inl hp⟩

end World

/-! ## Steps -/

/-- A state can be read there. -/
def HasState (p : Path) (disk : Disk) : Prop := ∃ bytes, disk p = some (.file bytes) ∧ (load bytes).isSome = true

/-- What a step may change, on the disk it finds. -/
def MayChange (disk : Disk) (p : Path) : Prop :=
  Internal p ∨ (∃ final, Ordinary final ∧ HasState load (stateFilePath final) disk ∧ (p = final ∨ p = stateFilePath final)) ∨
    Ordinary p ∧ (disk p = none ∨ replaceable p)

variable {load replaceable}

theorem hasState_of_loadState {w : World} (hload : w.load = load) {p : Path} {disk : Disk} {state : Repair.DownloadState}
    (h : w.loadState p disk = some state) : HasState load p disk := by
  unfold World.loadState at h
  split at h
  next bytes hbytes =>
    rw [hload] at h
    exact ⟨bytes, hbytes, by rw [h]; rfl⟩
  next => cases h

/-- What a plan changes. -/
theorem planTarget_mayChange {w : World} (hload : w.load = load) {ask : Ask} (hname : Ordinary ask.base) {fuel : Nat} {disk after : Disk}
    {outcome : Except String Plan} (h : w.planTarget fuel ask disk = some (outcome, after)) :
    Leaves (MayChange load replaceable disk) disk after := by
  have hlock : ∀ p, Locks ask.base p → MayChange load replaceable disk p := by
    rintro p ⟨m, rfl⟩
    exact .inl ⟨_, hname.numbered m, .inr rfl⟩
  have hmoved : ∀ n p, w.Legacy ask (numbered ask.base n) disk → World.Moved (numbered ask.base n) p →
      MayChange load replaceable disk p := by
    rintro n p ⟨state, hstate, -⟩ (hp | hp)
    · exact .inl (internal_of_beside (hname.numbered n) hp)
    · exact .inr (.inl ⟨_, hname.numbered n, hasState_of_loadState hload hstate, hp⟩)
  cases World.planTarget_spec h with
  | done n after hpassed htouched hdone => exact htouched.mono hlock
  | fails e after htouched =>
    refine htouched.mono ?_
    rintro p (hp | ⟨n, -, hlegacy, hp⟩)
    · exact hlock p hp
    · exact hmoved n p hlegacy hp
  | fetches n resume after hpassed hclaim htouched hfree hresume =>
    refine htouched.mono ?_
    rintro p (hp | ⟨-, hp⟩ | ⟨hlegacy, hp⟩)
    · exact hlock p hp
    · exact .inl (internal_of_beside (hname.numbered n) hp)
    · exact hmoved n p hlegacy hp

theorem Step.leaves {who : Option Path} {site after : Site} (hsound : Sound replaceable site) (h : Step load replaceable who site after) :
    Leaves (MayChange load replaceable site.disk) site.disk after.disk := by
  cases h with
  | plan w hload ask hname hreplace hgrants h => exact planTarget_mayChange hload hname h
  | write hd hp entry => exact leaves_update _ entry (.inl ⟨_, hsound.ordinary _ hd, .inl hp⟩)
  | finish hd w h =>
    refine (World.finalize_spec (hsound.ordinary _ hd) h).1.mono ?_
    rintro p (hp | ⟨hord, hnone | ⟨hreplace, rfl⟩⟩)
    · exact .inl (internal_of_beside (hsound.ordinary _ hd) hp)
    · exact .inr (.inr ⟨hord, .inl hnone⟩)
    · exact .inr (.inr ⟨hord, .inr (hsound.replaced _ hd hreplace)⟩)
  | stop hd w => exact World.leaves_released _ (.inl ⟨_, hsound.ordinary _ hd, .inr rfl⟩)
  | crash hd => exact Leaves.refl _ _
  | discard w final hname hgrants =>
    exact (World.discardPartial_leaves final site.disk).mono fun p hp => .inl ⟨final, hname, hp.2⟩

theorem sound_claims {outcome : Except String Plan} {ask : Ask} {live : List (Path × Bool)} {disk disk' : Disk}
    (hsound : Sound replaceable ⟨disk, live⟩) (hreplace : ask.replace = true → replaceable ask.base)
    (hfetch : ∀ final resume, outcome = .ok (.fetch final resume) → Ordinary final ∧ final ∉ live.map Prod.fst) :
    Sound replaceable ⟨disk', Plan.claims outcome ask live⟩ := by
  unfold Plan.claims
  split
  next final resume =>
    obtain ⟨hord, hnew⟩ := hfetch final resume rfl
    refine ⟨?_, ?_, List.nodup_cons.mpr ⟨hnew, hsound.once⟩⟩
    · intro d hd
      rcases List.mem_cons.mp hd with rfl | hd
      · exact hord
      · exact hsound.ordinary d hd
    · intro d hd hreplaced
      rcases List.mem_cons.mp hd with rfl | hd
      · obtain ⟨hask, hbase⟩ := Bool.and_eq_true_iff.mp hreplaced
        rw [beq_iff_eq] at hbase
        exact hbase ▸ hreplace hask
      · exact hsound.replaced d hd hreplaced
  next => exact ⟨hsound.ordinary, hsound.replaced, hsound.once⟩

theorem Sound.erase {site : Site} (h : Sound replaceable site) (d : Path × Bool) (disk : Disk) :
    Sound replaceable ⟨disk, site.live.erase d⟩ where
  ordinary e he := h.ordinary e (List.mem_of_mem_erase he)
  replaced e he := h.replaced e (List.mem_of_mem_erase he)
  once := h.once.sublist (List.erase_sublist.map _)

theorem Step.sound {who : Option Path} {site after : Site} (hsound : Sound replaceable site) (h : Step load replaceable who site after) :
    Sound replaceable after := by
  cases h with
  | plan w hload ask hname hreplace hgrants h =>
    refine sound_claims hsound hreplace ?_
    rintro final resume rfl
    cases World.planTarget_spec h with
    | fetches n resume after hpassed hclaim htouched hfree hresume => exact ⟨hname.numbered n, hgrants _ hclaim⟩
  | write hd hp entry => exact ⟨hsound.ordinary, hsound.replaced, hsound.once⟩
  | finish hd w h => exact hsound.erase _ _
  | stop hd w => exact hsound.erase _ _
  | crash hd => exact hsound.erase _ _
  | discard w final hname hgrants => exact ⟨hsound.ordinary, hsound.replaced, hsound.once⟩

/-! ## Runs -/

theorem lockPath_not_leftover (a b : Path) : lockPath a ∉ World.leftovers b := by
  intro h
  rcases ending_leftovers h with h | h | h | h
  · exact absurd (Option.some.inj ((ending_lockPath a).symm.trans h)) (by decide)
  · exact ne_of_endings (ending_lockPath a) (ending_stateFilePath _) (by decide) h
  · exact absurd (Option.some.inj ((ending_lockPath a).symm.trans h)) (by decide)
  · exact absurd (Option.some.inj ((ending_lockPath a).symm.trans h)) (by decide)

theorem beside_not_leftover {a b p : Path} (hne : a ≠ b) (h : Beside a p) : p ∉ World.leftovers b := by
  intro hp
  rcases h with rfl | rfl | rfl
  · exact hne (leftovers_apart (mem_leftovers.mpr ⟨"", by decide, by simp [Path.beside]⟩) hp)
  · exact hne (leftovers_apart (mem_leftovers.mpr ⟨".hfstate", by decide, rfl⟩) hp)
  · exact lockPath_not_leftover a b hp

theorem moved_not_leftover {a b p : Path} (ha : Ordinary a) (hb : Ordinary b) (hne : a ≠ b) (h : World.Moved a p) :
    p ∉ World.leftovers b := by
  intro hp
  have hint : Internal p := ⟨b, hb, .inl hp⟩
  rcases h with hbeside | rfl | rfl
  · exact beside_not_leftover hne hbeside hp
  · exact hint.not_ordinary ha
  · exact hint.ne_state ha rfl

/-- Another download's step, or a plan's, leaves a download that runs what it has. -/
theorem Step.others {who : Option Path} {site after : Site} (hsound : Sound replaceable site) (h : Step load replaceable who site after)
    {d : Path × Bool} (hd : d ∈ site.live) (hwho : who ≠ some d.1) :
    d ∈ after.live ∧ ∀ p ∈ World.leftovers d.1, after.disk p = site.disk p := by
  have hkeep : ∀ {own : Path → Prop} {disk : Disk}, Leaves own site.disk disk → (∀ p, own p → p ∉ World.leftovers d.1) →
      ∀ p ∈ World.leftovers d.1, disk p = site.disk p := fun hleaves hapart p hp => hleaves p fun hown => hapart p hown hp
  have herase : ∀ {e : Path × Bool}, some e.1 ≠ some d.1 → d ∈ site.live.erase e := by
    intro e hne
    exact (List.mem_erase_of_ne fun heq => hne (congrArg (fun x : Path × Bool => some x.1) heq.symm)).mpr hd
  cases h with
  | plan w hload ask hname hreplace hgrants h =>
    constructor
    · show d ∈ Plan.claims _ ask site.live
      unfold Plan.claims
      split
      · exact List.mem_cons_of_mem _ hd
      · exact hd
    · have hclaimed : ∀ n, w.claim (numbered ask.base n) = .ok true → numbered ask.base n ≠ d.1 :=
        fun n hclaim heq => hgrants _ hclaim (heq ▸ List.mem_map_of_mem hd)
      have hlock : ∀ p, Locks ask.base p → p ∉ World.leftovers d.1 := fun p ⟨m, hp⟩ => hp ▸ lockPath_not_leftover _ _
      cases World.planTarget_spec h with
      | done n after hpassed htouched hdone => exact hkeep htouched hlock
      | fails e after htouched =>
        refine hkeep htouched ?_
        rintro p (hp | ⟨n, hclaim, -, hp⟩)
        · exact hlock p hp
        · exact moved_not_leftover (hname.numbered n) (hsound.ordinary d hd) (hclaimed n hclaim) hp
      | fetches n resume after hpassed hclaim htouched hfree hresume =>
        refine hkeep htouched ?_
        rintro p (hp | ⟨-, hp⟩ | ⟨-, hp⟩)
        · exact hlock p hp
        · exact beside_not_leftover (hclaimed n hclaim) hp
        · exact moved_not_leftover (hname.numbered n) (hsound.ordinary d hd) (hclaimed n hclaim) hp
  | write he hp entry =>
    exact ⟨hd, hkeep (leaves_update _ entry rfl) fun p hp' hmem => hwho (congrArg some (leftovers_apart hp (hp' ▸ hmem)))⟩
  | @finish _ e he w fuel byContent finished result after h =>
    refine ⟨herase hwho, hkeep (World.finalize_spec (hsound.ordinary _ he) h).1 ?_⟩
    rintro p (hp | ⟨hord, -⟩)
    · exact beside_not_leftover (fun heq => hwho (congrArg some heq)) hp
    · exact fun hmem => Internal.not_ordinary ⟨d.1, hsound.ordinary d hd, .inl hmem⟩ hord
  | stop he w =>
    exact ⟨herase hwho, hkeep (World.leaves_released _ rfl) fun p hp => hp ▸ lockPath_not_leftover _ _⟩
  | crash he => exact ⟨herase hwho, fun _ _ => rfl⟩
  | discard w final hname hgrants =>
    refine ⟨hd, hkeep (World.discardPartial_leaves final site.disk) ?_⟩
    rintro p ⟨hclaim, hp | rfl⟩
    · intro hmem
      exact hgrants final hclaim (leftovers_apart hp hmem ▸ List.mem_map_of_mem hd)
    · exact lockPath_not_leftover final d.1

end Hyperfetch.Targets
