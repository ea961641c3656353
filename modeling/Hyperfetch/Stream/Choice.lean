import Hyperfetch.Stream.Tracks

/-!
# What the specs ask for is chosen

`choose` is right about what the parsed specs say (`choose_fits`). A spec keeps one term of each
kind, the last, so it is right about all of the terms for the specs whose last terms are the
strictest of their kinds (`choose_right_iff`).
-/

namespace Hyperfetch.Stream

open Weft

/-! ## Languages -/

theorem isWhite_toLower (c : Char) : isWhite c.toLower = isWhite c := by
  unfold Char.toLower
  split
  · rename_i hupper
    obtain ⟨hlow, hhigh⟩ := hupper
    rw [ge_iff_le, UInt32.le_iff_toNat_le] at hlow
    rw [UInt32.le_iff_toNat_le] at hhigh
    have hlow : 65 ≤ c.toNat := hlow
    have hhigh : c.toNat ≤ 90 := hhigh
    have hsum : (c.val + ('a'.val - 'A'.val)).toNat = c.toNat + 32 := by
      show (c.val + 32).toNat = _
      rw [UInt32.toNat_add]
      exact Nat.mod_eq_of_lt (show c.toNat + 32 < 4294967296 by omega)
    have hletter : ∀ d : Char, 65 ≤ d.toNat → d.toNat ≤ 122 → isWhite d = false := by
      intro d hd hd'
      simp only [isWhite, Bool.or_eq_false_iff, Bool.and_eq_false_iff, decide_eq_false_iff_not, beq_eq_false_iff_ne]
      omega
    rw [hletter c hlow (by omega)]
    refine hletter _ ?_ ?_
    · show 65 ≤ (c.val + ('a'.val - 'A'.val)).toNat
      omega
    · show (c.val + ('a'.val - 'A'.val)).toNat ≤ 122
      omega
  · rfl

theorem trim_map_toLower (text : Text) : trim (text.map Char.toLower) = (trim text).map Char.toLower := by
  have hwhite : isWhite ∘ Char.toLower = isWhite := funext isWhite_toLower
  unfold trim
  rw [List.dropWhile_map, hwhite, List.rdropWhile, List.rdropWhile, ← List.map_reverse, List.dropWhile_map, hwhite, List.map_reverse]

/-- Only the lower case of a tag counts. -/
theorem lowerTag_congr {a b : Text} (h : a.map Char.toLower = b.map Char.toLower) : lowerTag a = lowerTag b := by
  unfold lowerTag
  rw [← trim_map_toLower, ← trim_map_toLower, h]

theorem sameLanguage_congr {a b : Text} (h : a.map Char.toLower = b.map Char.toLower) (lang : Text) :
    sameLanguage a lang = sameLanguage b lang := by
  unfold sameLanguage
  rw [lowerTag_congr h]

theorem sameLanguage_self (tag : Text) : sameLanguage tag tag = true := by
  unfold sameLanguage
  simp only
  by_cases hhyphen : '-' ∈ lowerTag tag
  · rw [if_pos hhyphen]
    simp
  · rw [if_neg hhyphen]
    have hwhole : (lowerTag tag).takeWhile (· != '-') = lowerTag tag := by
      rw [List.takeWhile_eq_self_iff]
      intro c hc
      refine bne_iff_ne.mpr ?_
      rintro rfl
      exact hhyphen hc
    rw [hwhole]
    simp

section

variable {R : Rates}

theorem speaks_self (track : Track R) : speaks track.language track = true := by
  unfold speaks
  cases track.language with
  | none => rfl
  | some tag => exact sameLanguage_self tag

theorem speaks_congr {a b : Option Text} (h : a.map (·.map Char.toLower) = b.map (·.map Char.toLower)) : speaks (R := R) a = speaks b := by
  funext track
  cases a with
  | none =>
    cases b with
    | none => rfl
    | some b => cases h
  | some a =>
    cases b with
    | none => cases h
    | some b =>
      unfold speaks
      cases track.language with
      | none => rfl
      | some own => exact sameLanguage_congr (Option.some.inj h) own

/-! ## The best of a pool -/

theorem highest_spec {κ : Type} [LinearOrder κ] {rank : Placed R → κ} {pool : List (Placed R)} {v : Placed R} (h : highest rank pool = some v) :
    v ∈ pool ∧ ∀ w ∈ pool, rank w ≤ rank v :=
  ⟨List.mem_reverse.mp (List.argmax_mem h), fun _ hw => List.le_of_mem_argmax (List.mem_reverse.mpr hw) h⟩

theorem lowest_spec {κ : Type} [LinearOrder κ] {rank : Placed R → κ} {pool : List (Placed R)} {v : Placed R} (h : lowest rank pool = some v) :
    v ∈ pool ∧ ∀ w ∈ pool, rank v ≤ rank w :=
  ⟨List.argmin_mem h, fun _ hw => List.le_of_mem_argmin hw h⟩

theorem highest_eq_none {κ : Type} [LinearOrder κ] {rank : Placed R → κ} {pool : List (Placed R)} : highest rank pool = none ↔ pool = [] := by
  unfold highest
  rw [List.argmax_eq_none, List.reverse_eq_nil_iff]

theorem lowest_eq_none {κ : Type} [LinearOrder κ] {rank : Placed R → κ} {pool : List (Placed R)} : lowest rank pool = none ↔ pool = [] :=
  List.argmin_eq_none

theorem bestOf_spec {fits : List (Placed R)} {lang : Option Text} {a : Placed R} (h : bestOf fits lang = some a) :
    a ∈ fits ∧ speaks lang a.1 = true ∧ ∀ w ∈ fits, speaks lang w.1 = true → audioRank w ≤ audioRank a := by
  obtain ⟨hmem, hbest⟩ := highest_spec h
  obtain ⟨hfits, hspeaks⟩ := List.mem_filter.mp hmem
  exact ⟨hfits, hspeaks, fun w hw hlang => hbest w (List.mem_filter.mpr ⟨hw, hlang⟩)⟩

theorem bestOf_eq_none {fits : List (Placed R)} {lang : Option Text} : bestOf fits lang = none ↔ ∀ a ∈ fits, speaks lang a.1 = false := by
  unfold bestOf
  rw [highest_eq_none, List.filter_eq_nil_iff]
  simp only [Bool.not_eq_true]

theorem exists_bestOf {fits : List (Placed R)} {a : Placed R} (ha : a ∈ fits) : ∃ b, bestOf fits a.1.language = some b := by
  refine Option.ne_none_iff_exists'.mp fun hnone => ?_
  have hspeaks := bestOf_eq_none.mp hnone a ha
  rw [speaks_self] at hspeaks
  cases hspeaks

/-! ## What is right -/

variable (info : StreamInfo R)

/-- What may become of the video: `some none` takes none, `none` fails. Any that `meets` the spec
plays with audio if another does, and none that may be taken ranks above it. -/
inductive RightVideo (spec : VideoSpec R) (meets : Track R → Prop) : Option (Option (Placed R)) → Prop
  | skipped (h : spec.none = true ∨ info.videos = []) : RightVideo spec meets (some none)
  | failed (asked : spec.none = false) (has : info.videos ≠ []) (lacks : ∀ v ∈ info.videos, ¬ meets v.1) : RightVideo spec meets none
  | picked (v : Placed R) (asked : spec.none = false) (mem : v ∈ info.videos) (fits : meets v.1)
      (heard : (∃ w ∈ info.videos, meets w.1 ∧ info.audible w.1 = true) → info.audible v.1 = true)
      (best : ∀ w ∈ info.videos, meets w.1 → (info.audible v.1 = true → info.audible w.1 = true) →
        if spec.worst then videoRank v ≤ videoRank w else videoRank w ≤ videoRank v) : RightVideo spec meets (some (some v))

/-- Of the audio tracks that pair with the video, `a` is in the language `lang`, and none of those
that are is above it. -/
structure BestIn (video : Option (Track R)) (meets : Track R → Prop) (lang : Option Text) (a : Placed R) : Prop where
  mem : a ∈ info.audios video
  fits : meets a.1
  speaks : speaks lang a.1 = true
  best : ∀ w ∈ info.audios video, meets w.1 → Stream.speaks lang w.1 = true → audioRank w ≤ audioRank a

/-- What may become of the audio. -/
inductive RightAudio (video : Option (Track R)) (spec : AudioSpec) (meets : Track R → Prop) : Option (List (Placed R)) → Prop
  | skipped (h : spec.none = true ∨ info.audios video = []) : RightAudio video spec meets (some [])
  | failed (asked : spec.none = false) (has : info.audios video ≠ [])
      (lacks : (∀ a ∈ info.audios video, ¬ meets a.1) ∨
        (spec.all = false ∧ ∃ lang ∈ spec.languages, ∀ a ∈ info.audios video, meets a.1 → speaks (some lang) a.1 = false)) :
      RightAudio video spec meets none
  | picked (taken : List (Placed R)) (asked : spec.none = false) (fits : ∀ a ∈ taken, a ∈ info.audios video ∧ meets a.1)
      (once : (taken.map Prod.snd).Nodup)
      (all : spec.all = true → ∀ w ∈ info.audios video, meets w.1 → ∃ a ∈ taken, BestIn info video meets w.1.language a)
      (each : spec.all = false → spec.languages ≠ [] → ∃ picks,
        List.Forall₂ (fun lang a => BestIn info video meets (some lang) a) spec.languages picks ∧ taken = keepFirst Prod.snd [] picks)
      (best : spec.all = false → spec.languages = [] → ∃ lead ∈ info.audios video, meets lead.1 ∧
        ((∃ w ∈ info.audios video, meets w.1 ∧ w.1.isDefault = true) → lead.1.isDefault = true) ∧
          ∃ a, BestIn info video meets lead.1.language a ∧ taken = [a])
      (nonempty : taken ≠ []) : RightAudio video spec meets (some taken)

/-- `outcome` is what a choice comes to, or fails with. -/
def Right (videoSpec : VideoSpec R) (videoMeets : Track R → Prop) (audioSpec : AudioSpec) (audioMeets : Track R → Prop)
    (outcome : Except (ChooseError R) (List ℕ)) : Prop :=
  (RightVideo info videoSpec videoMeets none ∧ ∃ e, outcome = .error e) ∨
    ∃ video, RightVideo info videoSpec videoMeets (some video) ∧
      ((RightAudio info (video.map Prod.fst) audioSpec audioMeets none ∧ ∃ e, outcome = .error e) ∨
        ∃ audio, RightAudio info (video.map Prod.fst) audioSpec audioMeets (some audio) ∧
          outcome = .ok ((video.toList ++ audio).map Prod.snd))

variable {info}

theorem placed_inj {a b : Placed R} (ha : a ∈ info.placed) (hb : b ∈ info.placed) (h : a.2 = b.2) : a = b := by
  have hget := List.mem_zipIdx_iff_getElem?.mp ha
  have hget' := List.mem_zipIdx_iff_getElem?.mp hb
  rw [h, hget'] at hget
  exact Prod.ext (Option.some.inj hget).symm h

theorem videoPool_ne_nil {fits : List (Placed R)} (h : fits ≠ []) : info.videoPool fits ≠ [] := by
  unfold StreamInfo.videoPool
  simp only
  split
  · exact h
  · rename_i hheard
    rw [List.isEmpty_iff] at hheard
    exact hheard

theorem mem_videoPool {fits : List (Placed R)} {v : Placed R} (h : v ∈ info.videoPool fits) :
    v ∈ fits ∧ ((∃ w ∈ fits, info.audible w.1 = true) → info.audible v.1 = true) := by
  unfold StreamInfo.videoPool at h
  simp only at h
  split at h
  · rename_i hheard
    refine ⟨h, ?_⟩
    rintro ⟨w, hw, hwheard⟩
    exact absurd hwheard (List.filter_eq_nil_iff.mp (List.isEmpty_iff.mp hheard) w hw)
  · obtain ⟨hfits, hheard⟩ := List.mem_filter.mp h
    exact ⟨hfits, fun _ => hheard⟩

/-- What fits is in the pool with `v` if it plays with audio when `v` does. -/
theorem mem_videoPool_of {fits : List (Placed R)} {v w : Placed R} (hv : v ∈ info.videoPool fits) (hw : w ∈ fits)
    (h : info.audible v.1 = true → info.audible w.1 = true) : w ∈ info.videoPool fits := by
  unfold StreamInfo.videoPool at hv ⊢
  simp only at hv ⊢
  split
  · exact hw
  · rename_i hheard
    rw [if_neg hheard] at hv
    exact List.mem_filter.mpr ⟨hw, h (List.mem_filter.mp hv).2⟩

/-- The video is picked rightly, by the spec as it was parsed. -/
theorem pickVideo_right (spec : VideoSpec R) (text : Text) :
    (RightVideo info spec (fun t => spec.fits t = true) none ∧ ∃ e, info.pickVideo spec text = .error e) ∨
      ∃ video, RightVideo info spec (fun t => spec.fits t = true) (some video) ∧ info.pickVideo spec text = .ok video := by
  unfold StreamInfo.pickVideo
  split
  · rename_i hskip
    refine .inr ⟨none, .skipped ?_, rfl⟩
    simpa using hskip
  · rename_i hasked
    simp only [Bool.or_eq_true, List.isEmpty_iff, not_or, Bool.not_eq_true] at hasked
    obtain ⟨hasked, hhas⟩ := hasked
    simp only
    split
    · rename_i hlacks
      refine .inl ⟨.failed hasked hhas ?_, _, rfl⟩
      intro v hv hfits
      have hnil := List.filter_eq_nil_iff.mp (List.isEmpty_iff.mp hlacks) v hv
      exact hnil hfits
    · rename_i hfits
      rw [List.isEmpty_iff] at hfits
      have hpick : ∀ v ∈ info.videoPool (info.videos.filter fun v => spec.fits v.1),
          (∀ w ∈ info.videoPool (info.videos.filter fun v => spec.fits v.1),
            if spec.worst then videoRank v ≤ videoRank w else videoRank w ≤ videoRank v) →
          RightVideo info spec (fun t => spec.fits t = true) (some (some v)) := by
        intro v hv hbest
        obtain ⟨hmem, hheard⟩ := mem_videoPool hv
        obtain ⟨hvideo, hfit⟩ := List.mem_filter.mp hmem
        refine .picked v hasked hvideo hfit ?_ ?_
        · rintro ⟨w, hw, hwfit, hwheard⟩
          exact hheard ⟨w, List.mem_filter.mpr ⟨hw, hwfit⟩, hwheard⟩
        · intro w hw hwfit hwheard
          exact hbest w (mem_videoPool_of hv (List.mem_filter.mpr ⟨hw, hwfit⟩) hwheard)
      split
      · rename_i hworst
        cases hlow : lowest videoRank (info.videoPool (info.videos.filter fun v => spec.fits v.1)) with
        | none => exact absurd (lowest_eq_none.mp hlow) (videoPool_ne_nil hfits)
        | some v =>
          obtain ⟨hv, hleast⟩ := lowest_spec hlow
          refine .inr ⟨some v, hpick v hv fun w hw => ?_, rfl⟩
          rw [if_pos hworst]
          exact hleast w hw
      · rename_i hworst
        cases hhigh : highest videoRank (info.videoPool (info.videos.filter fun v => spec.fits v.1)) with
        | none => exact absurd (highest_eq_none.mp hhigh) (videoPool_ne_nil hfits)
        | some v =>
          obtain ⟨hv, hmost⟩ := highest_spec hhigh
          refine .inr ⟨some v, hpick v hv fun w hw => ?_, rfl⟩
          rw [if_neg hworst]
          exact hmost w hw

/-! ## The audio tracks -/

theorem mem_bestOfAll {fits rest : List (Placed R)} {seen : List (Option Text)} {a : Placed R} (h : a ∈ bestOfAll fits rest seen) :
    a ∈ fits := by
  induction rest generalizing seen with
  | nil => cases h
  | cons b rest ih =>
    unfold bestOfAll at h
    simp only at h
    split at h
    · exact ih h
    · rcases List.mem_append.mp h with h | h
      · exact (bestOf_spec (Option.mem_toList.mp h)).1
      · exact ih h

/-- Every language that was not seen gets its best track. -/
theorem exists_mem_bestOfAll {fits rest : List (Placed R)} (hrest : ∀ a ∈ rest, a ∈ fits) {seen : List (Option Text)} {w : Placed R}
    (hw : w ∈ rest) (hnew : w.1.language.map (·.map Char.toLower) ∉ seen) :
    ∃ a ∈ bestOfAll fits rest seen, bestOf fits w.1.language = some a := by
  induction rest generalizing seen with
  | nil => cases hw
  | cons b rest ih =>
    unfold bestOfAll
    simp only
    have hrest' : ∀ a ∈ rest, a ∈ fits := fun a ha => hrest a (List.mem_cons_of_mem b ha)
    split
    · rename_i hseen
      rcases List.mem_cons.mp hw with rfl | hw
      · exact absurd hseen hnew
      · exact ih hrest' hw hnew
    · by_cases hsame : w.1.language.map (·.map Char.toLower) = b.1.language.map (·.map Char.toLower)
      · obtain ⟨a, ha⟩ := exists_bestOf (hrest b List.mem_cons_self)
        refine ⟨a, List.mem_append_left _ (Option.mem_toList.mpr ha), ?_⟩
        have hspeaks : speaks (R := R) w.1.language = speaks b.1.language := speaks_congr hsame
        unfold bestOf at ha ⊢
        rw [hspeaks]
        exact ha
      · rcases List.mem_cons.mp hw with rfl | hw
        · exact absurd rfl hsame
        · have hnew' : w.1.language.map (·.map Char.toLower) ∉ seen ++ [b.1.language.map (·.map Char.toLower)] := by
            rw [List.mem_append, List.mem_singleton, not_or]
            exact ⟨hnew, hsame⟩
          obtain ⟨a, ha, hbest⟩ := ih hrest' hw hnew'
          exact ⟨a, List.mem_append_right _ ha, hbest⟩

/-- Each language asked for gets its best track, or one of them has none. -/
theorem bestOfEach_eq (text : Text) (has : List (Track R)) (fits : List (Placed R)) (langs : List Text) :
    (∃ picks, bestOfEach text has fits langs = .ok picks ∧ List.Forall₂ (fun lang a => bestOf fits (some lang) = some a) langs picks) ∨
      ∃ lang ∈ langs, bestOf fits (some lang) = none ∧ ∃ e, bestOfEach text has fits langs = .error e := by
  induction langs with
  | nil => exact .inl ⟨[], rfl, .nil⟩
  | cons lang langs ih =>
    have hcons : bestOfEach text has fits (lang :: langs) = (do
        let a ← okOr (.noLanguage lang text has) (bestOf fits (some lang))
        let picks ← bestOfEach text has fits langs
        return a :: picks) := List.mapM_cons
    cases hlang : bestOf fits (some lang) with
    | none =>
      refine .inr ⟨lang, List.mem_cons_self, hlang, .noLanguage lang text has, ?_⟩
      rw [hcons, hlang]
      rfl
    | some a =>
      rcases ih with ⟨picks, hpicks, hall⟩ | ⟨other, hother, hnone, e, he⟩
      · refine .inl ⟨a :: picks, ?_, .cons hlang hall⟩
        rw [hcons, hlang, hpicks]
        rfl
      · refine .inr ⟨other, List.mem_cons_of_mem _ hother, hnone, e, ?_⟩
        rw [hcons, hlang, he]
        rfl

theorem exists_of_mem_picks {r : Text → Placed R → Prop} {langs : List Text} {picks : List (Placed R)} (h : List.Forall₂ r langs picks)
    {a : Placed R} (ha : a ∈ picks) : ∃ lang ∈ langs, r lang a := by
  induction h with
  | nil => cases ha
  | cons hfirst _ ih =>
    rcases List.mem_cons.mp ha with rfl | ha
    · exact ⟨_, List.mem_cons_self, hfirst⟩
    · obtain ⟨lang, hlang, hr⟩ := ih ha
      exact ⟨lang, List.mem_cons_of_mem _ hlang, hr⟩

theorem BestIn.of_bestOf {video : Option (Track R)} {spec : AudioSpec} {lang : Option Text} {a : Placed R}
    (h : bestOf ((info.audios video).filter fun a => spec.fits a.1) lang = some a) :
    BestIn info video (fun t => spec.fits t = true) lang a := by
  obtain ⟨hmem, hspeaks, hbest⟩ := bestOf_spec h
  obtain ⟨haudio, hfits⟩ := List.mem_filter.mp hmem
  exact ⟨haudio, hfits, hspeaks, fun w hw hwfits hlang => hbest w (List.mem_filter.mpr ⟨hw, hwfits⟩) hlang⟩

theorem keepFirst_ne_nil {chosen : List (Placed R)} (h : chosen ≠ []) : keepFirst Prod.snd [] chosen ≠ [] := by
  cases chosen with
  | nil => exact absurd rfl h
  | cons a rest =>
    rw [keepFirst, if_neg List.not_mem_nil]
    exact List.cons_ne_nil _ _

/-- Of tracks of one stream every one is kept, once. -/
theorem mem_keepFirst_placed {chosen : List (Placed R)} (hplaced : ∀ a ∈ chosen, a ∈ info.placed) {a : Placed R} (ha : a ∈ chosen) :
    a ∈ keepFirst Prod.snd [] chosen := by
  have hkey : a.2 ∈ (keepFirst Prod.snd [] chosen).map Prod.snd := (mem_map_keepFirst List.not_mem_nil).mpr (List.mem_map_of_mem ha)
  obtain ⟨b, hb, hsame⟩ := List.mem_map.mp hkey
  rw [placed_inj (hplaced a ha) (hplaced b ((keepFirst_sublist [] chosen).subset hb)) hsame.symm]
  exact hb

theorem placed_of_audios {video : Option (Track R)} {a : Placed R} (h : a ∈ info.audios video) : a ∈ info.placed :=
  (List.mem_filter.mp h).1

/-- What is chosen of the tracks that fit is right once each is kept once. -/
theorem RightAudio.of_chosen {video : Option (Track R)} {spec : AudioSpec} {fits chosen : List (Placed R)} (hasked : spec.none = false)
    (hfits : (info.audios video).filter (fun a => spec.fits a.1) = fits) (hne : chosen ≠ []) (hsub : ∀ a ∈ chosen, a ∈ fits)
    (hall : spec.all = true → ∀ w ∈ fits, ∃ a ∈ chosen, bestOf fits w.1.language = some a)
    (heach : spec.all = false → spec.languages ≠ [] → List.Forall₂ (fun lang a => bestOf fits (some lang) = some a) spec.languages chosen)
    (hbest : spec.all = false → spec.languages = [] → ∃ lead ∈ fits,
      ((∃ w ∈ fits, w.1.isDefault = true) → lead.1.isDefault = true) ∧ ∃ a, bestOf fits lead.1.language = some a ∧ chosen = [a]) :
    RightAudio info video spec (fun t => spec.fits t = true) (some (keepFirst Prod.snd [] chosen)) := by
  subst hfits
  have hplaced : ∀ a ∈ chosen, a ∈ info.placed := fun a ha => placed_of_audios (List.mem_filter.mp (hsub a ha)).1
  refine .picked _ hasked ?_ (keepFirst_nodup [] chosen).1 ?_ ?_ ?_ (keepFirst_ne_nil hne)
  · intro a ha
    exact List.mem_filter.mp (hsub a ((keepFirst_sublist [] chosen).subset ha))
  · intro hspec w hw hwfits
    obtain ⟨a, ha, hlang⟩ := hall hspec w (List.mem_filter.mpr ⟨hw, hwfits⟩)
    exact ⟨a, mem_keepFirst_placed hplaced ha, .of_bestOf hlang⟩
  · intro hspec hlangs
    exact ⟨chosen, (heach hspec hlangs).imp fun _ _ h => .of_bestOf h, rfl⟩
  · intro hspec hlangs
    obtain ⟨lead, hlead, hdefault, a, ha, rfl⟩ := hbest hspec hlangs
    obtain ⟨haudio, hfits⟩ := List.mem_filter.mp hlead
    refine ⟨lead, haudio, hfits, ?_, a, .of_bestOf ha, rfl⟩
    rintro ⟨w, hw, hwfits, hwdefault⟩
    exact hdefault ⟨w, List.mem_filter.mpr ⟨hw, hwfits⟩, hwdefault⟩

/-- The default track, else the first. -/
theorem lead_spec (first : Placed R) (rest : List (Placed R)) :
    ((first :: rest).find? fun a => a.1.isDefault).getD first ∈ first :: rest ∧
      ((∃ w ∈ first :: rest, w.1.isDefault = true) → (((first :: rest).find? fun a => a.1.isDefault).getD first).1.isDefault = true) := by
  cases hfind : (first :: rest).find? fun a => a.1.isDefault with
  | none =>
    refine ⟨List.mem_cons_self, ?_⟩
    rintro ⟨w, hw, hdefault⟩
    exact absurd hdefault (List.find?_eq_none.mp hfind w hw)
  | some lead =>
    refine ⟨List.mem_of_find?_eq_some hfind, ?_⟩
    intro _
    have hdefault := List.find?_some hfind
    exact hdefault

/-- The audio tracks are picked rightly, by the spec as it was parsed. -/
theorem pickAudio_right (video : Option (Track R)) (spec : AudioSpec) (text : Text) :
    (RightAudio info video spec (fun t => spec.fits t = true) none ∧ ∃ e, info.pickAudio video spec text = .error e) ∨
      ∃ audio, RightAudio info video spec (fun t => spec.fits t = true) (some audio) ∧ info.pickAudio video spec text = .ok audio := by
  unfold StreamInfo.pickAudio
  simp only
  split
  · rename_i hskip
    refine .inr ⟨[], .skipped ?_, rfl⟩
    simpa using hskip
  · rename_i hasked
    simp only [Bool.or_eq_true, List.isEmpty_iff, not_or, Bool.not_eq_true] at hasked
    obtain ⟨hasked, hhas⟩ := hasked
    cases hfits : (info.audios video).filter fun a => spec.fits a.1 with
    | nil =>
      refine .inl ⟨.failed hasked hhas (.inl ?_), _, rfl⟩
      exact fun a ha => List.filter_eq_nil_iff.mp hfits a ha
    | cons first rest =>
      by_cases hall : spec.all = true
      · obtain ⟨a, ha, -⟩ := exists_mem_bestOfAll (fun _ h => h) (@List.mem_cons_self _ first rest) (List.not_mem_nil (a := _))
        refine .inr ⟨keepFirst Prod.snd [] (bestOfAll (first :: rest) (first :: rest) []), ?_, ?_⟩
        · refine .of_chosen hasked hfits (List.ne_nil_of_mem ha) (fun _ => mem_bestOfAll) ?_ ?_ ?_
          · exact fun _ w hw => exists_mem_bestOfAll (fun _ h => h) hw List.not_mem_nil
          · exact fun hnot => absurd hall (by rw [hnot]; exact Bool.false_ne_true)
          · exact fun hnot => absurd hall (by rw [hnot]; exact Bool.false_ne_true)
        · simp only [hall, if_true]
          rfl
      · have hnot : spec.all = false := Bool.eq_false_iff.mpr hall
        by_cases hlangs : spec.languages = []
        · obtain ⟨hlead, hdefault⟩ := lead_spec first rest
          obtain ⟨a, ha⟩ := exists_bestOf hlead
          refine .inr ⟨keepFirst Prod.snd [] [a], ?_, ?_⟩
          · refine .of_chosen hasked hfits (List.cons_ne_nil _ _) ?_ ?_ ?_ ?_
            · intro b hb
              rw [List.mem_singleton.mp hb]
              exact (bestOf_spec ha).1
            · exact fun hspec => absurd hspec hall
            · exact fun _ hne => absurd hlangs hne
            · exact fun _ _ => ⟨_, hlead, hdefault, a, ha, rfl⟩
          · simp only [hnot, hlangs, List.isEmpty_nil, if_true, ha]
            rfl
        · rcases bestOfEach_eq text ((info.audios video).map Prod.fst) (first :: rest) spec.languages with
            ⟨picks, hpicks, hbest⟩ | ⟨lang, hlang, hnone, e, he⟩
          · refine .inr ⟨keepFirst Prod.snd [] picks, ?_, ?_⟩
            · refine .of_chosen hasked hfits ?_ ?_ ?_ ?_ ?_
              · rintro rfl
                exact hlangs (List.length_eq_zero_iff.mp hbest.length_eq)
              · intro a ha
                obtain ⟨lang, -, hlang⟩ := exists_of_mem_picks hbest ha
                exact (bestOf_spec hlang).1
              · exact fun hspec => absurd hspec hall
              · exact fun _ _ => hbest
              · exact fun _ hnil => absurd hnil hlangs
            · simp only [hnot, List.isEmpty_eq_false_iff.mpr hlangs, hpicks]
              rfl
          · refine .inl ⟨.failed hasked hhas (.inr ⟨hnot, lang, hlang, ?_⟩), e, ?_⟩
            · intro a ha hafits
              exact bestOf_eq_none.mp hnone a (hfits ▸ List.mem_filter.mpr ⟨ha, hafits⟩)
            · simp only [hnot, List.isEmpty_eq_false_iff.mpr hlangs, he]
              rfl

/-- `choose` is right about the specs as they were parsed. -/
theorem choose_fits (info : StreamInfo R) {video audio : Text} {videoSpec : VideoSpec R} {audioSpec : AudioSpec}
    (hvideo : VideoSpec.parse video = .ok videoSpec) (haudio : AudioSpec.parse (R := R) audio = .ok audioSpec) :
    Right info videoSpec (fun t => videoSpec.fits t = true) audioSpec (fun t => audioSpec.fits t = true)
      (choose info ⟨video, audio, []⟩) := by
  have hchoose : choose info ⟨video, audio, []⟩ = (do
      let v ← info.pickVideo videoSpec video
      let a ← info.pickAudio (v.map Prod.fst) audioSpec audio
      return (v.toList ++ a).map Prod.snd) := by
    show (VideoSpec.parse video >>= _) = _
    rw [hvideo]
    show (info.pickVideo videoSpec video >>= fun v => AudioSpec.parse audio >>= _) = _
    rw [haudio]
    rfl
  rw [hchoose]
  rcases pickVideo_right videoSpec video with ⟨hright, e, he⟩ | ⟨v, hright, hv⟩
  · refine .inl ⟨hright, e, ?_⟩
    rw [he]
    rfl
  · refine .inr ⟨v, hright, ?_⟩
    rcases pickAudio_right (v.map Prod.fst) audioSpec audio with ⟨hright, e, he⟩ | ⟨a, hright, ha⟩
    · refine .inl ⟨hright, e, ?_⟩
      rw [hv]
      show (info.pickAudio (v.map Prod.fst) audioSpec audio >>= _) = _
      rw [he]
      rfl
    · refine .inr ⟨a, hright, ?_⟩
      rw [hv]
      show (info.pickAudio (v.map Prod.fst) audioSpec audio >>= _) = _
      rw [ha]
      rfl

/-! ## Terms -/

/-- Whether a track meets a term. -/
def VideoTerm.met (term : VideoTerm R) (track : Track R) : Bool :=
  match term with
  | .codec family => videoFamily track.codecs = some family
  | .range name => name.covers track.range
  | .fps max => noneOr track.frameRate (R.within · max)
  | .lines max => noneOr track.height (· ≤ max)
  | _ => true

def AudioTerm.met (term : AudioTerm) (track : Track R) : Bool :=
  match term with
  | .codec family => (families track.codecs).contains family
  | .channels min => track.channels.any (min ≤ ·)
  | _ => true

/-- What a video spec says, term by term. -/
def videoTerms (text : Text) : List (VideoTerm R) := (terms text).filterMap readVideoTerm

def audioTerms (text : Text) : List AudioTerm := (terms text).filterMap readAudioTerm

/-- The last term of its kind is as strict as `term`. -/
def VideoSpec.respects (spec : VideoSpec R) (term : VideoTerm R) : Prop :=
  match term with
  | .codec family => spec.codec = some family
  | .range name => spec.range = some name
  | .fps max => ∃ last, spec.maxFps = some last ∧ ∀ rate, R.within rate last = true → R.within rate max = true
  | .lines max => ∃ last, spec.maxHeight = some last ∧ last ≤ max
  | _ => True

def AudioSpec.respects (spec : AudioSpec) (term : AudioTerm) : Prop :=
  match term with
  | .codec family => spec.codec = some family
  | .channels min => ∃ last, spec.minChannels = some last ∧ min ≤ last
  | _ => True

/-- Reading terms one after another, each into what was read before. -/
theorem foldlM_read {α β ε : Type} {read : Text → Option α} {error : Text → ε} {apply : β → α → β} {texts : List Text} {b c : β}
    (h : texts.foldlM (fun b text => (okOr (error text) (read text)).map (apply b)) b = .ok c) : (texts.filterMap read).foldl apply b = c := by
  induction texts generalizing b with
  | nil => exact Except.ok.inj h
  | cons text texts ih =>
    rw [List.foldlM_cons] at h
    obtain ⟨b', hfirst, hrest⟩ := bind_eq_ok.mp h
    cases hread : read text with
    | none =>
      rw [hread] at hfirst
      cases hfirst
    | some a =>
      rw [hread] at hfirst
      cases hfirst
      rw [List.filterMap_cons_some hread]
      exact ih hrest

theorem VideoSpec.parse_eq {text : Text} {spec : VideoSpec R} (h : VideoSpec.parse text = .ok spec) :
    (videoTerms text).foldl VideoSpec.apply VideoSpec.default = spec := foldlM_read h

theorem AudioSpec.parse_eq {text : Text} {spec : AudioSpec} (h : AudioSpec.parse (R := R) text = .ok spec) :
    (audioTerms text).foldl AudioSpec.apply AudioSpec.default = spec := foldlM_read h

/-- Every bound of a spec is a term's. -/
theorem VideoSpec.of_terms (ts : List (VideoTerm R)) :
    (∀ c, (ts.foldl VideoSpec.apply VideoSpec.default).codec = some c → .codec c ∈ ts) ∧
      (∀ n, (ts.foldl VideoSpec.apply VideoSpec.default).range = some n → .range n ∈ ts) ∧
      (∀ f, (ts.foldl VideoSpec.apply VideoSpec.default).maxFps = some f → .fps f ∈ ts) ∧
      ∀ m, (ts.foldl VideoSpec.apply VideoSpec.default).maxHeight = some m → .lines m ∈ ts := by
  induction ts using List.reverseRecOn with
  | nil => simp [VideoSpec.default]
  | append_singleton ts t ih =>
    obtain ⟨hcodec, hrange, hfps, hlines⟩ := ih
    rw [List.foldl_append, List.foldl_cons, List.foldl_nil]
    cases t with
    | codec family =>
      refine ⟨fun c hc => ?_, fun n hn => List.mem_append_left _ (hrange n hn), fun f hf => List.mem_append_left _ (hfps f hf),
        fun m hm => List.mem_append_left _ (hlines m hm)⟩
      cases hc
      exact List.mem_append_right _ (List.mem_singleton_self _)
    | range name =>
      refine ⟨fun c hc => List.mem_append_left _ (hcodec c hc), fun n hn => ?_, fun f hf => List.mem_append_left _ (hfps f hf),
        fun m hm => List.mem_append_left _ (hlines m hm)⟩
      cases hn
      exact List.mem_append_right _ (List.mem_singleton_self _)
    | fps max =>
      refine ⟨fun c hc => List.mem_append_left _ (hcodec c hc), fun n hn => List.mem_append_left _ (hrange n hn), fun f hf => ?_,
        fun m hm => List.mem_append_left _ (hlines m hm)⟩
      cases hf
      exact List.mem_append_right _ (List.mem_singleton_self _)
    | lines max =>
      refine ⟨fun c hc => List.mem_append_left _ (hcodec c hc), fun n hn => List.mem_append_left _ (hrange n hn),
        fun f hf => List.mem_append_left _ (hfps f hf), fun m hm => ?_⟩
      cases hm
      exact List.mem_append_right _ (List.mem_singleton_self _)
    | best | worst | none =>
      exact ⟨fun c hc => List.mem_append_left _ (hcodec c hc), fun n hn => List.mem_append_left _ (hrange n hn),
        fun f hf => List.mem_append_left _ (hfps f hf), fun m hm => List.mem_append_left _ (hlines m hm)⟩

theorem AudioSpec.of_terms (ts : List AudioTerm) :
    (∀ c, (ts.foldl AudioSpec.apply AudioSpec.default).codec = some c → .codec c ∈ ts) ∧
      ∀ n, (ts.foldl AudioSpec.apply AudioSpec.default).minChannels = some n → .channels n ∈ ts := by
  induction ts using List.reverseRecOn with
  | nil => simp [AudioSpec.default]
  | append_singleton ts t ih =>
    obtain ⟨hcodec, hchannels⟩ := ih
    rw [List.foldl_append, List.foldl_cons, List.foldl_nil]
    cases t with
    | codec family =>
      refine ⟨fun c hc => ?_, fun n hn => List.mem_append_left _ (hchannels n hn)⟩
      cases hc
      exact List.mem_append_right _ (List.mem_singleton_self _)
    | channels min =>
      refine ⟨fun c hc => List.mem_append_left _ (hcodec c hc), fun n hn => ?_⟩
      cases hn
      exact List.mem_append_right _ (List.mem_singleton_self _)
    | best | all | none | language tag =>
      exact ⟨fun c hc => List.mem_append_left _ (hcodec c hc), fun n hn => List.mem_append_left _ (hchannels n hn)⟩

theorem noneOr_eq_true {α : Type} {o : Option α} {p : α → Bool} : noneOr o p = true ↔ ∀ x, o = some x → p x = true := by
  cases o <;> simp [noneOr]

theorem VideoSpec.fits_iff {spec : VideoSpec R} {track : Track R} : spec.fits track = true ↔
    (∀ m, spec.maxHeight = some m → VideoTerm.met (.lines m) track = true) ∧
      (∀ c, spec.codec = some c → VideoTerm.met (.codec c) track = true) ∧
      (∀ n, spec.range = some n → VideoTerm.met (.range n) track = true) ∧
      ∀ f, spec.maxFps = some f → VideoTerm.met (.fps f) track = true := by
  unfold VideoSpec.fits
  rw [Bool.and_eq_true, Bool.and_eq_true, Bool.and_eq_true, noneOr_eq_true, noneOr_eq_true, noneOr_eq_true, noneOr_eq_true, and_assoc, and_assoc]
  rfl

theorem AudioSpec.fits_iff {spec : AudioSpec} {track : Track R} : spec.fits track = true ↔
    (∀ c, spec.codec = some c → AudioTerm.met (.codec c) track = true) ∧
      ∀ n, spec.minChannels = some n → AudioTerm.met (.channels n) track = true := by
  unfold AudioSpec.fits
  rw [Bool.and_eq_true, noneOr_eq_true, noneOr_eq_true]
  rfl

/-- Where the last terms are as strict as all, what fits the spec meets every term. -/
theorem VideoSpec.fits_iff_met {ts : List (VideoTerm R)} {spec : VideoSpec R} (hspec : ts.foldl VideoSpec.apply VideoSpec.default = spec)
    (h : ∀ t ∈ ts, spec.respects t) (track : Track R) : spec.fits track = true ↔ ∀ t ∈ ts, t.met track = true := by
  obtain ⟨hcodec, hrange, hfps, hlines⟩ := VideoSpec.of_terms ts
  rw [hspec] at hcodec hrange hfps hlines
  rw [VideoSpec.fits_iff]
  constructor
  · rintro ⟨hheight, hfamily, hcovers, hrate⟩ t ht
    have hrespects := h t ht
    cases t with
    | codec family => exact hfamily family hrespects
    | range name => exact hcovers name hrespects
    | fps max =>
      obtain ⟨last, hlast, hstrict⟩ := hrespects
      refine noneOr_eq_true.mpr fun rate hrated => hstrict rate ?_
      exact noneOr_eq_true.mp (hrate last hlast) rate hrated
    | lines max =>
      obtain ⟨last, hlast, hstrict⟩ := hrespects
      refine noneOr_eq_true.mpr fun height hheighted => decide_eq_true ?_
      exact (of_decide_eq_true (noneOr_eq_true.mp (hheight last hlast) height hheighted)).trans hstrict
    | best | worst | none => rfl
  · intro hmet
    exact ⟨fun m hm => hmet _ (hlines m hm), fun c hc => hmet _ (hcodec c hc), fun n hn => hmet _ (hrange n hn), fun f hf => hmet _ (hfps f hf)⟩

theorem AudioSpec.fits_iff_met {ts : List AudioTerm} {spec : AudioSpec} (hspec : ts.foldl AudioSpec.apply AudioSpec.default = spec)
    (h : ∀ t ∈ ts, spec.respects t) (track : Track R) : spec.fits track = true ↔ ∀ t ∈ ts, t.met track = true := by
  obtain ⟨hcodec, hchannels⟩ := AudioSpec.of_terms ts
  rw [hspec] at hcodec hchannels
  rw [AudioSpec.fits_iff]
  constructor
  · rintro ⟨hfamily, hmin⟩ t ht
    have hrespects := h t ht
    cases t with
    | codec family => exact hfamily family hrespects
    | channels min =>
      obtain ⟨last, hlast, hstrict⟩ := hrespects
      obtain ⟨n, hn, hle⟩ := Option.any_eq_true _ _ |>.mp (hmin last hlast)
      exact (Option.any_eq_true _ _).mpr ⟨n, hn, decide_eq_true (hstrict.trans (of_decide_eq_true hle))⟩
    | best | all | none | language tag => rfl
  · intro hmet
    exact ⟨fun c hc => hmet _ (hcodec c hc), fun n hn => hmet _ (hchannels n hn)⟩

/-! ## A stream for a looser last term -/

/-- A name of the codec family. -/
def codecName : Family → Text
  | .avc => "avc1".toList
  | .hevc => "hvc1".toList
  | .av1 => "av01".toList
  | .vp9 => "vp09".toList
  | .vp8 => "vp08".toList
  | .aac => "mp4a".toList
  | .mp3 => "mp3".toList
  | .ac3 => "ac-3".toList
  | .eac3 => "ec-3".toList
  | .ac4 => "ac-4".toList
  | .opus => "opus".toList
  | .flac => "flac".toList
  | .alac => "alac".toList
  | .dts => "dts".toList
  | .vorbis => "vorbis".toList

theorem families_codecName (family : Family) : families (codecName family) = [family] := by
  cases family <;> decide

theorem videoFamily_codecName {family : Family} (h : family ∈ videoCodecs) : videoFamily (codecName family) = some family := by
  unfold videoFamily
  rw [families_codecName, List.find?_cons_of_pos (by simpa using h)]

/-- The spec has a bound of the kind of `term`. -/
def VideoSpec.bounds (spec : VideoSpec R) (term : VideoTerm R) : Prop :=
  match term with
  | .codec _ => ∃ last, spec.codec = some last
  | .range _ => ∃ last, spec.range = some last
  | .fps _ => ∃ last, spec.maxFps = some last
  | .lines _ => ∃ last, spec.maxHeight = some last
  | _ => True

def AudioSpec.bounds (spec : AudioSpec) (term : AudioTerm) : Prop :=
  match term with
  | .codec _ => ∃ last, spec.codec = some last
  | .channels _ => ∃ last, spec.minChannels = some last
  | _ => True

theorem VideoSpec.bounds_apply {spec : VideoSpec R} {t u : VideoTerm R} (h : spec.bounds t ∨ u = t) : (spec.apply u).bounds t := by
  rcases h with h | rfl
  · cases t <;> cases u <;> first | exact h | exact ⟨_, rfl⟩
  · cases u <;> first | exact ⟨_, rfl⟩ | exact trivial

theorem AudioSpec.bounds_apply {spec : AudioSpec} {t u : AudioTerm} (h : spec.bounds t ∨ u = t) : (spec.apply u).bounds t := by
  rcases h with h | rfl
  · cases t <;> cases u <;> first | exact h | exact ⟨_, rfl⟩
  · cases u <;> first | exact ⟨_, rfl⟩ | exact trivial

theorem VideoSpec.bounds_of_mem {ts : List (VideoTerm R)} {t : VideoTerm R} {spec : VideoSpec R} (h : spec.bounds t ∨ t ∈ ts) :
    (ts.foldl VideoSpec.apply spec).bounds t := by
  induction ts generalizing spec with
  | nil => exact h.resolve_right List.not_mem_nil
  | cons u ts ih =>
    refine ih ?_
    rcases h with h | h
    · exact .inl (bounds_apply (.inl h))
    · rcases List.mem_cons.mp h with rfl | h
      · exact .inl (bounds_apply (.inr rfl))
      · exact .inr h

theorem AudioSpec.bounds_of_mem {ts : List AudioTerm} {t : AudioTerm} {spec : AudioSpec} (h : spec.bounds t ∨ t ∈ ts) :
    (ts.foldl AudioSpec.apply spec).bounds t := by
  induction ts generalizing spec with
  | nil => exact h.resolve_right List.not_mem_nil
  | cons u ts ih =>
    refine ih ?_
    rcases h with h | h
    · exact .inl (bounds_apply (.inl h))
    · rcases List.mem_cons.mp h with rfl | h
      · exact .inl (bounds_apply (.inr rfl))
      · exact .inr h

/-- A video that just fits. -/
def sampleVideo (spec : VideoSpec R) (height : Option ℕ) (frameRate : Option R.F) : Track R where
  id := []
  kind := .video
  codecs := (spec.codec.map codecName).getD []
  height := height
  frameRate := frameRate
  bandwidth := none
  range := match spec.range with
    | some .hdr => .hdr10
    | some .dv => .dolbyVision
    | _ => .sdr
  channels := none
  language := none
  role := .main
  isDefault := false
  group := none

/-- Terms name codecs of videos. -/
theorem videoCodecs_of_term {text : Text} {family : Family} (h : VideoTerm.codec family ∈ videoTerms (R := R) text) : family ∈ videoCodecs := by
  obtain ⟨term, -, hread⟩ := List.mem_filterMap.mp h
  unfold readVideoTerm at hread
  simp only at hread
  split at hread
  · rename_i p hfind
    have hword := List.mem_of_find?_eq_some hfind
    have hsays : p.2 = .codec family := Option.some.inj hread
    simp only [videoWords, List.map_cons, List.map_nil, List.mem_cons, List.not_mem_nil, or_false] at hword
    rcases hword with rfl | rfl | rfl | rfl | rfl | rfl | rfl | rfl | rfl | rfl | rfl | rfl <;> cases hsays <;> decide
  · split at hread
    · cases hread
    · obtain ⟨n, -, hlines⟩ := Option.map_eq_some_iff.mp hread
      cases hlines

/-- A term that the last of its kind does not respect leaves out a video that fits the spec. -/
theorem exists_unmet_video {text : Text} {spec : VideoSpec R} (hspec : VideoSpec.parse text = .ok spec) {t : VideoTerm R}
    (ht : t ∈ videoTerms text) (h : ¬ spec.respects t) :
    ∃ track : Track R, track.kind = .video ∧ spec.fits track = true ∧ t.met track = false := by
  have hparse := VideoSpec.parse_eq hspec
  obtain ⟨hcodec, -, -, -⟩ := VideoSpec.of_terms (videoTerms (R := R) text)
  have hbounds := @VideoSpec.bounds_of_mem R _ t VideoSpec.default (.inr ht)
  rw [hparse] at hcodec hbounds
  have hcodecs : ∀ c, spec.codec = some c → c ∈ videoCodecs := fun c hc => videoCodecs_of_term (hcodec c hc)
  have hfamily : ∀ height rate c, spec.codec = some c → videoFamily (sampleVideo spec height rate).codecs = some c := by
    intro height rate c hc
    show videoFamily ((spec.codec.map codecName).getD []) = some c
    rw [hc]
    exact videoFamily_codecName (hcodecs c hc)
  have hrange : ∀ height rate n, spec.range = some n → n.covers (sampleVideo spec height rate).range = true := by
    intro height rate n hn
    unfold sampleVideo
    simp only
    rw [hn]
    cases n <;> rfl
  have hfits : ∀ height rate, (∀ m, spec.maxHeight = some m → noneOr height (· ≤ m) = true) →
      (∀ f, spec.maxFps = some f → noneOr rate (R.within · f) = true) → spec.fits (sampleVideo spec height rate) = true := by
    intro height rate hheight hrate
    exact VideoSpec.fits_iff.mpr ⟨hheight, fun c hc => decide_eq_true (hfamily height rate c hc), fun n hn => hrange height rate n hn, hrate⟩
  cases t with
  | codec family =>
    obtain ⟨last, hlast⟩ := hbounds
    refine ⟨sampleVideo spec none none, rfl, hfits none none (fun _ _ => rfl) (fun _ _ => rfl), ?_⟩
    refine decide_eq_false fun hsame => h ?_
    rw [hfamily none none last hlast] at hsame
    exact hlast.trans hsame
  | range name =>
    obtain ⟨last, hlast⟩ := hbounds
    refine ⟨sampleVideo spec none none, rfl, hfits none none (fun _ _ => rfl) (fun _ _ => rfl), ?_⟩
    have hdiffer : last ≠ name := by
      rintro rfl
      exact h hlast
    show name.covers (sampleVideo spec none none).range = false
    unfold sampleVideo
    simp only
    rw [hlast]
    cases last <;> cases name <;> first | rfl | exact absurd rfl hdiffer
  | fps max =>
    obtain ⟨last, hlast⟩ := hbounds
    have hlooser : ∃ rate, R.within rate last = true ∧ R.within rate max = false := by
      by_contra hnone
      push Not at hnone
      exact h ⟨last, hlast, fun rate hrate => Bool.not_eq_false _ |>.mp (hnone rate hrate)⟩
    obtain ⟨rate, hin, hout⟩ := hlooser
    refine ⟨sampleVideo spec none (some rate), rfl, hfits none (some rate) (fun _ _ => rfl) ?_, hout⟩
    intro f hf
    rw [hlast] at hf
    cases hf
    exact hin
  | lines max =>
    obtain ⟨last, hlast⟩ := hbounds
    have hlooser : max < last := not_le.mp fun hle => h ⟨last, hlast, hle⟩
    refine ⟨sampleVideo spec (some last) none, rfl, hfits (some last) none ?_ (fun _ _ => rfl), ?_⟩
    · intro m hm
      rw [hlast] at hm
      cases hm
      exact decide_eq_true le_rfl
    · exact decide_eq_false (not_le.mpr hlooser)
  | best | worst | none => exact absurd trivial h

/-- An audio track in the language `lang` that just fits. -/
def sampleAudio (R : Rates) (spec : AudioSpec) (lang : Option Text) : Track R where
  id := []
  kind := .audio
  codecs := (spec.codec.map codecName).getD []
  height := none
  frameRate := none
  bandwidth := none
  range := .sdr
  channels := spec.minChannels
  language := lang
  role := .main
  isDefault := false
  group := none

theorem sampleAudio_families {spec : AudioSpec} {family : Family} (h : spec.codec = some family) (lang : Option Text) :
    families (sampleAudio R spec lang).codecs = [family] := by
  show families ((spec.codec.map codecName).getD []) = _
  rw [h]
  exact families_codecName family

theorem sampleAudio_fits (spec : AudioSpec) (lang : Option Text) : spec.fits (sampleAudio R spec lang) = true := by
  refine AudioSpec.fits_iff.mpr ⟨?_, ?_⟩
  · intro c hc
    show (families (sampleAudio R spec lang).codecs).contains c = true
    rw [sampleAudio_families hc]
    simp
  · intro n hn
    show spec.minChannels.any (n ≤ ·) = true
    rw [hn]
    exact decide_eq_true le_rfl

theorem sampleAudio_unmet {text : Text} {spec : AudioSpec} (hspec : AudioSpec.parse (R := R) text = .ok spec) {t : AudioTerm}
    (ht : t ∈ audioTerms text) (h : ¬ spec.respects t) (lang : Option Text) : t.met (sampleAudio R spec lang) = false := by
  have hbounds := @AudioSpec.bounds_of_mem _ t AudioSpec.default (.inr ht)
  rw [AudioSpec.parse_eq hspec] at hbounds
  cases t with
  | codec family =>
    obtain ⟨last, hlast⟩ := hbounds
    show (families (sampleAudio R spec lang).codecs).contains family = false
    rw [sampleAudio_families hlast]
    have hdiffer : family ≠ last := by
      rintro rfl
      exact h hlast
    simp [hdiffer]
  | channels min =>
    obtain ⟨last, hlast⟩ := hbounds
    show spec.minChannels.any (min ≤ ·) = false
    rw [hlast]
    exact decide_eq_false fun hle => h ⟨last, hlast, hle⟩
  | best | all | none | language tag => exact absurd trivial h

/-! ## Every term -/

/-- What the whole spec asks of a track. -/
def MeetsAll (ts : List (VideoTerm R)) (track : Track R) : Prop := ∀ t ∈ ts, t.met track = true

def MeetsAllAudio (ts : List AudioTerm) (track : Track R) : Prop := ∀ t ∈ ts, t.met track = true

/-- The last terms of the specs are the strictest of their kinds. -/
def Strict (videoSpec : VideoSpec R) (video : List (VideoTerm R)) (audioSpec : AudioSpec) (audio : List AudioTerm) : Prop :=
  (videoSpec.none = false → ∀ t ∈ video, videoSpec.respects t) ∧ (audioSpec.none = false → ∀ t ∈ audio, audioSpec.respects t)

theorem RightVideo.congr {info : StreamInfo R} {spec : VideoSpec R} {p q : Track R → Prop} (h : spec.none = false → ∀ t, p t ↔ q t)
    {o : Option (Option (Placed R))} (hright : RightVideo info spec p o) : RightVideo info spec q o := by
  cases hright with
  | skipped h' => exact .skipped h'
  | failed asked has lacks => exact .failed asked has fun v hv hq => lacks v hv ((h asked v.1).mpr hq)
  | picked v asked mem fits heard best =>
    refine .picked v asked mem ((h asked v.1).mp fits) ?_ ?_
    · rintro ⟨w, hw, hq, haudible⟩
      exact heard ⟨w, hw, (h asked w.1).mpr hq, haudible⟩
    · exact fun w hw hq => best w hw ((h asked w.1).mpr hq)

theorem BestIn.congr {info : StreamInfo R} {video : Option (Track R)} {p q : Track R → Prop} (h : ∀ t, p t ↔ q t) {lang : Option Text}
    {a : Placed R} (hbest : BestIn info video p lang a) : BestIn info video q lang a :=
  ⟨hbest.mem, (h a.1).mp hbest.fits, hbest.speaks, fun w hw hq => hbest.best w hw ((h w.1).mpr hq)⟩

theorem RightAudio.congr {info : StreamInfo R} {video : Option (Track R)} {spec : AudioSpec} {p q : Track R → Prop}
    (h : spec.none = false → ∀ t, p t ↔ q t) {o : Option (List (Placed R))} (hright : RightAudio info video spec p o) :
    RightAudio info video spec q o := by
  cases hright with
  | skipped h' => exact .skipped h'
  | failed asked has lacks =>
    refine .failed asked has ?_
    rcases lacks with lacks | ⟨hall, lang, hlang, lacks⟩
    · exact .inl fun a ha hq => lacks a ha ((h asked a.1).mpr hq)
    · exact .inr ⟨hall, lang, hlang, fun a ha hq => lacks a ha ((h asked a.1).mpr hq)⟩
  | picked taken asked fits once all each best nonempty =>
    refine .picked taken asked (fun a ha => ⟨(fits a ha).1, (h asked a.1).mp (fits a ha).2⟩) once ?_ ?_ ?_ nonempty
    · intro hall w hw hq
      obtain ⟨a, ha, hbest⟩ := all hall w hw ((h asked w.1).mpr hq)
      exact ⟨a, ha, hbest.congr (h asked)⟩
    · intro hall hlangs
      obtain ⟨picks, hpicks, htaken⟩ := each hall hlangs
      exact ⟨picks, hpicks.imp fun _ _ hbest => hbest.congr (h asked), htaken⟩
    · intro hall hlangs
      obtain ⟨lead, hlead, hfits, hdefault, a, hbest, htaken⟩ := best hall hlangs
      refine ⟨lead, hlead, (h asked lead.1).mp hfits, ?_, a, hbest.congr (h asked), htaken⟩
      rintro ⟨w, hw, hq, hwdefault⟩
      exact hdefault ⟨w, hw, (h asked w.1).mpr hq, hwdefault⟩

theorem Right.congr {info : StreamInfo R} {videoSpec : VideoSpec R} {audioSpec : AudioSpec} {p q p' q' : Track R → Prop}
    (hvideo : videoSpec.none = false → ∀ t, p t ↔ q t) (haudio : audioSpec.none = false → ∀ t, p' t ↔ q' t)
    {outcome : Except (ChooseError R) (List ℕ)} (h : Right info videoSpec p audioSpec p' outcome) : Right info videoSpec q audioSpec q' outcome := by
  rcases h with ⟨hright, herror⟩ | ⟨video, hright, ⟨hright', herror⟩ | ⟨audio, hright', hok⟩⟩
  · exact .inl ⟨hright.congr hvideo, herror⟩
  · exact .inr ⟨video, hright.congr hvideo, .inl ⟨hright'.congr haudio, herror⟩⟩
  · exact .inr ⟨video, hright.congr hvideo, .inr ⟨audio, hright'.congr haudio, hok⟩⟩

/-- A stream of one video that fits the spec and not all of its terms is not chosen from rightly. -/
theorem not_right_of_video {videoSpec : VideoSpec R} {audioSpec : AudioSpec} {p q p' q' : Track R → Prop} {track : Track R}
    (hkind : track.kind = .video) (hasked : videoSpec.none = false) (hfits : p track) (hunmet : ¬ q track)
    {outcome : Except (ChooseError R) (List ℕ)} (h : Right ⟨.dash, [track]⟩ videoSpec p audioSpec p' outcome) :
    ¬ Right ⟨.dash, [track]⟩ videoSpec q audioSpec q' outcome := by
  have hvideos : (⟨.dash, [track]⟩ : StreamInfo R).videos = [(track, 0)] := by simp [StreamInfo.videos, StreamInfo.placed, hkind]
  have haudios : ∀ video, (⟨.dash, [track]⟩ : StreamInfo R).audios video = [] := by
    intro video
    simp [StreamInfo.audios, StreamInfo.placed, hkind]
  have hok : ∃ chosen, outcome = .ok chosen := by
    rcases h with ⟨hright, -⟩ | ⟨video, -, ⟨hright, -⟩ | ⟨audio, -, hok⟩⟩
    · cases hright with
      | failed _ _ lacks => exact absurd hfits (lacks (track, 0) (by rw [hvideos]; exact List.mem_cons_self))
    · cases hright with
      | failed _ has _ => exact absurd (haudios _) has
    · exact ⟨_, hok⟩
  obtain ⟨chosen, hok⟩ := hok
  have hwrong : ∀ video, ¬ RightVideo ⟨.dash, [track]⟩ videoSpec q (some video) := by
    intro video hright
    cases hright with
    | skipped h =>
      rcases h with h | h
      · rw [hasked] at h
        cases h
      · rw [hvideos] at h
        cases h
    | picked v _ mem fits _ _ =>
      rw [hvideos, List.mem_singleton] at mem
      rw [mem] at fits
      exact hunmet fits
  rintro (⟨-, e, he⟩ | ⟨video, hright, -⟩)
  · rw [hok] at he
    cases he
  · exact hwrong video hright

/-- Nor is a stream of audio tracks that fit the spec and not all of its terms. -/
theorem not_right_of_audio {videoSpec : VideoSpec R} {audioSpec : AudioSpec} {p q p' q' : Track R → Prop} {tracks : List (Track R)}
    (hne : tracks ≠ []) (hkind : ∀ t ∈ tracks, t.kind = .audio) (hasked : audioSpec.none = false) (hfits : ∀ t ∈ tracks, p' t)
    (hunmet : ∀ t ∈ tracks, ¬ q' t) (hlangs : ∀ lang ∈ audioSpec.languages, audioSpec.all = false → ∃ t ∈ tracks, speaks (some lang) t = true)
    {outcome : Except (ChooseError R) (List ℕ)} (h : Right ⟨.dash, tracks⟩ videoSpec p audioSpec p' outcome) :
    ¬ Right ⟨.dash, tracks⟩ videoSpec q audioSpec q' outcome := by
  have hplaced : ∀ a ∈ (⟨.dash, tracks⟩ : StreamInfo R).placed, a.1 ∈ tracks := fun a ha =>
    List.mem_of_getElem? (List.mem_zipIdx_iff_getElem?.mp ha)
  have hvideos : (⟨.dash, tracks⟩ : StreamInfo R).videos = [] := by
    refine List.filter_eq_nil_iff.mpr fun a ha hvideo => ?_
    rw [hkind a.1 (hplaced a ha)] at hvideo
    cases hvideo
  have haudios : ∀ video, ∀ a, a ∈ (⟨.dash, tracks⟩ : StreamInfo R).audios video ↔ a ∈ (⟨.dash, tracks⟩ : StreamInfo R).placed := by
    intro video a
    refine ⟨fun ha => (List.mem_filter.mp ha).1, fun ha => List.mem_filter.mpr ⟨ha, ?_⟩⟩
    rw [hkind a.1 (hplaced a ha)]
    rfl
  have hmem : ∀ video, ∀ t ∈ tracks, ∃ a ∈ (⟨.dash, tracks⟩ : StreamInfo R).audios video, a.1 = t := by
    intro video t ht
    obtain ⟨i, hi⟩ := List.mem_iff_getElem?.mp ht
    exact ⟨(t, i), (haudios video _).mpr (List.mem_zipIdx_iff_getElem?.mpr hi), rfl⟩
  have hhas : ∀ video, (⟨.dash, tracks⟩ : StreamInfo R).audios video ≠ [] := by
    intro video
    obtain ⟨t, ht⟩ := List.exists_mem_of_ne_nil tracks hne
    obtain ⟨a, ha, -⟩ := hmem video t ht
    exact List.ne_nil_of_mem ha
  have hfitsAll : ∀ video, ∀ a ∈ (⟨.dash, tracks⟩ : StreamInfo R).audios video, p' a.1 := fun video a ha =>
    hfits a.1 (hplaced a ((haudios video a).mp ha))
  have hnone : ∀ (spec : VideoSpec R) (r : Track R → Prop) o, RightVideo ⟨.dash, tracks⟩ spec r o → o = some none := by
    intro spec r o hright
    cases hright with
    | skipped => rfl
    | failed _ has _ => exact absurd hvideos has
    | picked v _ mem _ _ _ =>
      rw [hvideos] at mem
      cases mem
  -- as parsed, the spec takes some of the tracks
  have htaken : ∃ taken : List (Placed R), taken ≠ [] ∧ outcome = .ok (taken.map Prod.snd) := by
    rcases h with ⟨hright, -⟩ | ⟨video, hright, hright' | ⟨audio, hright', hok⟩⟩
    · cases hnone _ _ _ hright
    · cases hnone _ _ _ hright
      obtain ⟨hright', -⟩ := hright'
      cases hright' with
      | failed _ has lacks =>
        exfalso
        rcases lacks with lacks | ⟨hall, lang, hlang, lacks⟩
        · obtain ⟨a, ha⟩ := List.exists_mem_of_ne_nil _ (hhas none)
          exact lacks a ha (hfitsAll none a ha)
        · obtain ⟨t, ht, hspeaks⟩ := hlangs lang hlang hall
          obtain ⟨a, ha, rfl⟩ := hmem none t ht
          rw [lacks a ha (hfits _ ht)] at hspeaks
          cases hspeaks
    · cases hnone _ _ _ hright
      cases hright' with
      | skipped h =>
        rcases h with h | h
        · rw [hasked] at h
          cases h
        · exact absurd h (hhas _)
      | picked _ _ _ _ _ _ _ nonempty => exact ⟨audio, nonempty, hok⟩
  obtain ⟨taken, hne, hok⟩ := htaken
  rintro (⟨hright, -⟩ | ⟨video, hright, ⟨-, e, he⟩ | ⟨audio, hright', hok'⟩⟩)
  · cases hnone _ _ _ hright
  · rw [hok] at he
    cases he
  · cases hnone _ _ _ hright
    cases hright' with
    | skipped h =>
      rcases h with h | h
      · rw [hasked] at h
        cases h
      · exact absurd h (hhas _)
    | picked _ _ fits _ _ _ _ nonempty =>
      obtain ⟨a, ha⟩ := List.exists_mem_of_ne_nil audio nonempty
      obtain ⟨haudio, hq⟩ := fits a ha
      exact hunmet a.1 (hplaced a ((haudios _ a).mp haudio)) hq

/-- For every stream `choose` is right about all of the terms just when the last ones are the
strictest of their kinds. -/
theorem choose_right_iff (R : Rates) (video audio : Text) (videoSpec : VideoSpec R) (audioSpec : AudioSpec)
    (hvideo : VideoSpec.parse video = .ok videoSpec) (haudio : AudioSpec.parse (R := R) audio = .ok audioSpec) :
    (∀ info : StreamInfo R, Right info videoSpec (MeetsAll (videoTerms video)) audioSpec (MeetsAllAudio (audioTerms audio))
      (choose info ⟨video, audio, []⟩)) ↔ Strict videoSpec (videoTerms video) audioSpec (audioTerms audio) := by
  constructor
  · intro hright
    refine ⟨?_, ?_⟩
    · intro hasked t ht
      by_contra hloose
      obtain ⟨track, hkind, hfits, hunmet⟩ := exists_unmet_video hvideo ht hloose
      refine not_right_of_video hkind hasked hfits ?_ (choose_fits ⟨.dash, [track]⟩ hvideo haudio) (hright ⟨.dash, [track]⟩)
      intro hmeets
      rw [hmeets t ht] at hunmet
      cases hunmet
    · intro hasked t ht
      by_contra hloose
      have hunmet := sampleAudio_unmet (R := R) haudio ht hloose
      have hall : ∀ track ∈ (none :: audioSpec.languages.map some).map (sampleAudio R audioSpec),
          ∃ lang, track = sampleAudio R audioSpec lang := by
        intro track htrack
        obtain ⟨lang, -, rfl⟩ := List.mem_map.mp htrack
        exact ⟨lang, rfl⟩
      refine not_right_of_audio (List.cons_ne_nil _ _) ?_ hasked ?_ ?_ ?_ (choose_fits ⟨.dash, _⟩ hvideo haudio)
        (hright ⟨.dash, (none :: audioSpec.languages.map some).map (sampleAudio R audioSpec)⟩)
      · intro track htrack
        obtain ⟨lang, rfl⟩ := hall track htrack
        rfl
      · intro track htrack
        obtain ⟨lang, rfl⟩ := hall track htrack
        exact sampleAudio_fits audioSpec lang
      · intro track htrack hmeets
        obtain ⟨lang, rfl⟩ := hall track htrack
        have hmet := hmeets t ht
        rw [hunmet lang] at hmet
        cases hmet
      · intro lang hlang _
        refine ⟨sampleAudio R audioSpec (some lang), List.mem_map_of_mem (List.mem_cons_of_mem _ (List.mem_map_of_mem hlang)), ?_⟩
        exact sameLanguage_self lang
  · rintro ⟨hstrict, hstrict'⟩ info
    refine (choose_fits info hvideo haudio).congr ?_ ?_
    · exact fun hasked track => VideoSpec.fits_iff_met (VideoSpec.parse_eq hvideo) (hstrict hasked) track
    · exact fun hasked track => AudioSpec.fits_iff_met (AudioSpec.parse_eq haudio) (hstrict' hasked) track

end

/-! ## Two limits of one kind -/

/-- Whole frame rates. -/
def wholeRates : Rates where
  F := ℕ
  parse text := (readDecimal 1000 text).filter (0 < ·)
  within rate max := rate ≤ max

/-- What the video spec "720p,1080p" is parsed as. -/
def at1080 : VideoSpec wholeRates := { VideoSpec.default with maxHeight := some 1080 }

def tallTrack : Track wholeRates := sampleVideo at1080 (some 1080) none

/-- A video of 1080 lines is taken, where one term asks for at most 720. -/
theorem taller_than_asked :
    VideoSpec.parse "720p,1080p".toList = .ok at1080 ∧ AudioSpec.parse (R := wholeRates) [] = .ok AudioSpec.default ∧
      ¬ Right ⟨.dash, [tallTrack]⟩ at1080 (MeetsAll (videoTerms "720p,1080p".toList)) AudioSpec.default (MeetsAllAudio (audioTerms []))
        (choose ⟨.dash, [tallTrack]⟩ ⟨"720p,1080p".toList, [], []⟩) := by
  have hvideo : VideoSpec.parse "720p,1080p".toList = .ok at1080 := rfl
  have haudio : AudioSpec.parse (R := wholeRates) [] = .ok AudioSpec.default := rfl
  refine ⟨hvideo, haudio, ?_⟩
  refine not_right_of_video rfl rfl (show at1080.fits tallTrack = true from rfl) ?_ (choose_fits ⟨.dash, [tallTrack]⟩ hvideo haudio)
  intro hmeets
  have hlines : (videoTerms "720p,1080p".toList : List (VideoTerm wholeRates)) = [.lines 720, .lines 1080] := rfl
  have hmet := hmeets (.lines 720) (by rw [hlines]; exact List.mem_cons_self)
  cases hmet

def hevcAt1080 : VideoSpec wholeRates := { VideoSpec.default with maxHeight := some 1080, codec := some .hevc }

def englishAac : AudioSpec := { AudioSpec.default with languages := ["en".toList], codec := some .aac }

def smallStream : StreamInfo wholeRates :=
  ⟨.dash, [sampleVideo hevcAt1080 (some 720) none, sampleAudio wholeRates englishAac (some "en-US".toList)]⟩

/-- With one term of each kind the choice is right. -/
theorem right_from_smallStream :
    Right smallStream hevcAt1080 (MeetsAll (videoTerms "1080p,hevc".toList)) englishAac (MeetsAllAudio (audioTerms "en,aac".toList))
      (choose smallStream ⟨"1080p,hevc".toList, "en,aac".toList, []⟩) := by
  have hvideo : (videoTerms "1080p,hevc".toList : List (VideoTerm wholeRates)) = [.lines 1080, .codec .hevc] := rfl
  have haudio : audioTerms "en,aac".toList = [.language "en".toList, .codec .aac] := rfl
  refine (choose_right_iff wholeRates "1080p,hevc".toList "en,aac".toList hevcAt1080 englishAac rfl rfl).mpr ⟨?_, ?_⟩ smallStream
  · intro _ t ht
    rw [hvideo] at ht
    rcases List.mem_cons.mp ht with rfl | ht
    · exact ⟨1080, rfl, le_rfl⟩
    · rw [List.mem_singleton.mp ht]
      rfl
  · intro _ t ht
    rw [haudio] at ht
    rcases List.mem_cons.mp ht with rfl | ht
    · exact trivial
    · rw [List.mem_singleton.mp ht]
      rfl

end Hyperfetch.Stream
