import Hyperfetch.Hls.Playlist

/-!
# Keys fetched ahead

The walk waits for a key it comes to, and takes the others as their fetches end. What it
makes of the playlist is what it would make fetching each key where it comes to it, in
whatever order they end; and none is fetched twice.
-/

namespace Hyperfetch.Hls.Playlist

open Weft Vod

variable {F : Type} {times : Times F} {join : Join} {ads : List (F × F)}

/-! ## Two ways to come by keys -/

/-- The keys a line asks for. -/
def Asks (join : Join) (line : Line) (url : Url) : Prop := ∃ list, line = .key list ∧ keyUrl join (parseAttributes list) = .ok (some url)

section Simulation

variable {K K' : Type} {keys : Keys K} {keys' : Keys K'} {R : K → K' → Prop}

theorem step_sim {line : Line} (hget : ∀ url, Asks join line url → ∀ k k', R k k' →
    (keys.get url k).1 = (keys'.get url k').1 ∧ R (keys.get url k).2 (keys'.get url k').2) (w : Walk F) {k : K} {k' : K'} (hR : R k k') :
    (w.step times keys join ads k line).1 = (w.step times keys' join ads k' line).1 ∧
      R (w.step times keys join ads k line).2 (w.step times keys' join ads k' line).2 := by
  cases line with
  | key list =>
    simp only [Walk.step, Walk.keyLine]
    cases hurl : keyUrl join (parseAttributes list) with
    | error e => exact ⟨rfl, hR⟩
    | ok url =>
      cases url with
      | none => exact ⟨rfl, hR⟩
      | some url =>
        obtain ⟨hsame, hR'⟩ := hget url ⟨list, rfl, hurl⟩ k k' hR
        dsimp only
        generalize keys.get url k = got at hsame hR'
        generalize keys'.get url k' = got' at hsame hR'
        obtain ⟨key, after⟩ := got
        obtain ⟨key', after'⟩ := got'
        obtain rfl : key = key' := hsame
        cases key with
        | error e => exact ⟨rfl, hR'⟩
        | ok key => exact ⟨rfl, hR'⟩
  | _ => exact ⟨rfl, hR⟩

/-- Ways that answer alike are alike to the walk. -/
theorem walkLines_sim {rest : List Line} (hget : ∀ line ∈ rest, ∀ url, Asks join line url → ∀ k k', R k k' →
    (keys.get url k).1 = (keys'.get url k').1 ∧ R (keys.get url k).2 (keys'.get url k').2) (w : Walk F) {k : K} {k' : K'} (hR : R k k') :
    (walkLines times keys join ads rest w k).1 = (walkLines times keys' join ads rest w k').1 ∧
      R (walkLines times keys join ads rest w k).2 (walkLines times keys' join ads rest w k').2 := by
  induction rest generalizing w k k' with
  | nil => exact ⟨rfl, hR⟩
  | cons line rest ih =>
    obtain ⟨hsame, hR'⟩ := @step_sim F times join ads K K' keys keys' R line (hget line List.mem_cons_self) w k k' hR
    rw [walkLines, walkLines]
    generalize w.step times keys join ads k line = stepped at hsame hR'
    generalize w.step times keys' join ads k' line = stepped' at hsame hR'
    obtain ⟨walked, after⟩ := stepped
    obtain ⟨walked', after'⟩ := stepped'
    obtain rfl : walked = walked' := hsame
    cases walked with
    | error e => exact ⟨rfl, hR'⟩
    | ok w => exact ih (fun line hline => hget line (List.mem_cons_of_mem _ hline)) w hR'

end Simulation

/-! ## The keys named -/

theorem key_of_readLine {line list : Text} (h : readLine line = .key list) : after "#EXT-X-KEY:" line = some list := by
  unfold readLine at h
  split at h
  · cases h
  · split at h
    · cases h
    · split at h
      · split at h <;> cases h
      · split at h
        · cases h
        · split at h <;> first
            | (cases h; assumption)
            | cases h
            | (split at h <;> cases h)

theorem nameKey_spec {seen : List Url} (hseen : seen.Nodup) (list : Text) :
    (nameKey join seen list).Nodup ∧ seen ⊆ nameKey join seen list ∧
      ∀ url, keyUrl join (parseAttributes list) = .ok (some url) → url ∈ nameKey join seen list := by
  unfold nameKey
  split
  next url hurl =>
    split
    next hold =>
      refine ⟨hseen, List.Subset.refl _, fun other hother => ?_⟩
      rw [hurl] at hother
      cases hother
      exact List.contains_iff_mem.mp hold
    next hnew =>
      refine ⟨List.nodup_append'.mpr ⟨hseen, List.nodup_singleton _, ?_⟩, List.subset_append_left _ _, fun other hother => ?_⟩
      · intro other hother hmem
        rw [List.mem_singleton.mp hmem] at hother
        exact hnew (List.contains_iff_mem.mpr hother)
      · rw [hurl] at hother
        cases hother
        exact List.mem_append_right _ List.mem_cons_self
  next hnone => exact ⟨hseen, List.Subset.refl _, fun url hurl => absurd hurl (hnone url)⟩

theorem nameKeys_spec (rest : List Text) {seen : List Url} (hseen : seen.Nodup) :
    (rest.foldl (nameKey join) seen).Nodup ∧ seen ⊆ rest.foldl (nameKey join) seen ∧
      ∀ list ∈ rest, ∀ url, keyUrl join (parseAttributes list) = .ok (some url) → url ∈ rest.foldl (nameKey join) seen := by
  induction rest generalizing seen with
  | nil => exact ⟨hseen, List.Subset.refl _, fun list hlist => absurd hlist List.not_mem_nil⟩
  | cons list rest ih =>
    obtain ⟨hnodup, hsub, hurl⟩ := nameKey_spec hseen list
    obtain ⟨hafter, hkept, hrest⟩ := ih hnodup
    refine ⟨hafter, List.Subset.trans hsub hkept, ?_⟩
    intro other hother url hasks
    rcases List.mem_cons.mp hother with rfl | hother
    · exact hkept (hurl url hasks)
    · exact hrest other hother url hasks

/-- Each key is named once. -/
theorem keyUrls_nodup (join : Join) (text : Text) : (keyUrls join text).Nodup := (nameKeys_spec _ List.nodup_nil).1

/-- A key the walk asks for is named. -/
theorem mem_keyUrls {text : Text} {line : Line} (hline : line ∈ readLines text) {url : Url} (h : Asks join line url) :
    url ∈ keyUrls join text := by
  obtain ⟨list, rfl, hurl⟩ := h
  obtain ⟨trimmed, htrimmed, hread⟩ := List.mem_map.mp hline
  refine (nameKeys_spec _ List.nodup_nil).2.2 list ?_ url hurl
  exact List.mem_filterMap.mpr ⟨trimmed, List.mem_of_mem_filter htrimmed, key_of_readLine hread⟩

/-! ## Waiting -/

variable (fetch : Url → Except String (List UInt8)) (known : Url → Option (List UInt8))

/-- What comes of asking for a key. -/
def answer (url : Url) : Except String (List UInt8) :=
  match known url with
  | some key => .ok key
  | none => fetch url

/-- What is kept is right, and every key of `named` is kept or to come. -/
structure Waiting (named : List Url) (a : Ahead) : Prop where
  cached : ∀ url key, a.cache url = some key → key = answer fetch known url
  coming : ∀ entry ∈ a.coming, entry.2 = answer fetch known entry.1
  named : ∀ url ∈ named, (a.cache url).isSome = true ∨ url ∈ a.coming.map (·.1)
  late : a.late = []

variable {fetch known} {named : List Url}

theorem cached_update {cache : Url → Option (Except String (List UInt8))} (h : ∀ url key, cache url = some key → key = answer fetch known url)
    {other : Url} {key : Except String (List UInt8)} (hkey : key = answer fetch known other) :
    ∀ url found, Function.update cache other (some key) url = some found → found = answer fetch known url := by
  intro url found hfound
  by_cases hurl : url = other
  · subst hurl
    rw [Function.update_self] at hfound
    rw [← Option.some.inj hfound, hkey]
  · rw [Function.update_of_ne hurl] at hfound
    exact h url found hfound

/-- A key that is named comes, as it is. -/
theorem waitFor_spec {url : Url} (hurl : url ∈ named) (coming : List (Url × Except String (List UInt8))) {a : Ahead}
    (h : Waiting fetch known named { a with coming := coming }) :
    (waitFor fetch url coming a).1 = answer fetch known url ∧ Waiting fetch known named (waitFor fetch url coming a).2 ∧
      (waitFor fetch url coming a).2.known = a.known := by
  induction coming generalizing a with
  | nil =>
    have hcached := (h.named url hurl).resolve_right List.not_mem_nil
    obtain ⟨key, hkey⟩ := Option.isSome_iff_exists.mp hcached
    rw [waitFor, show a.cache url = some key from hkey]
    exact ⟨h.cached url key hkey, h, rfl⟩
  | cons entry rest ih =>
    obtain ⟨other, key⟩ := entry
    rw [waitFor]
    cases hkey : a.cache url with
    | some found => exact ⟨h.cached url found hkey, h, rfl⟩
    | none =>
      refine ih (a := { a with cache := Function.update a.cache other (some key) }) ?_
      refine ⟨cached_update h.cached (h.coming _ List.mem_cons_self), fun entry hentry => h.coming entry (List.mem_cons_of_mem _ hentry), ?_, h.late⟩
      intro wanted hwanted
      by_cases hother : wanted = other
      · subst hother
        left
        show (Function.update a.cache wanted (some key) wanted).isSome = true
        rw [Function.update_self]
        rfl
      · show (Function.update a.cache other (some key) wanted).isSome = true ∨ _
        rw [Function.update_of_ne hother]
        rcases h.named wanted hwanted with hcached | hcoming
        · exact .inl hcached
        · exact .inr ((List.mem_cons.mp hcoming).resolve_left hother)

/-! ## The two ways are alike -/

/-- What is known by now is right. -/
structure Right (fetch : Url → Except String (List UInt8)) (known now : Url → Option (List UInt8)) : Prop where
  right : ∀ url key, now url = some key → answer fetch known url = .ok key
  kept : ∀ url, now url = none → known url = none

theorem right_refl : Right fetch known known where
  right url key hkey := by rw [answer, hkey]
  kept _ h := h

theorem Right.update {now : Url → Option (List UInt8)} (h : Right fetch known now) {url : Url} {key : List UInt8}
    (hkey : answer fetch known url = .ok key) : Right fetch known (Function.update now url (some key)) where
  right := by
    intro other found hfound
    by_cases hother : other = url
    · subst hother
      rw [Function.update_self] at hfound
      rw [hkey, Option.some.inj hfound]
    · rw [Function.update_of_ne hother] at hfound
      exact h.right other found hfound
  kept := by
    intro other hnone
    by_cases hother : other = url
    · subst hother
      rw [Function.update_self] at hnone
      cases hnone
    · rw [Function.update_of_ne hother] at hnone
      exact h.kept other hnone

/-- What is known once a key was asked for. -/
def learnt (fetch : Url → Except String (List UInt8)) (known : Url → Option (List UInt8)) (url : Url)
    (now : Url → Option (List UInt8)) : Url → Option (List UInt8) :=
  match answer fetch known url with
  | .ok key => Function.update now url (some key)
  | .error _ => now

theorem plain_get {now : Url → Option (List UInt8)} (h : Right fetch known now) (url : Url) :
    (plainKeys fetch).get url now = (answer fetch known url, learnt fetch known url now) := by
  simp only [plainKeys, learnt]
  cases hnow : now url with
  | some key =>
    rw [h.right url key hnow]
    exact congrArg (Prod.mk _) (Function.update_eq_self_iff.mpr hnow.symm).symm
  | none =>
    have hfetch : answer fetch known url = fetch url := by rw [answer, h.kept url hnow]
    rw [hfetch]
    cases fetch url <;> rfl

theorem Right.learnt {now : Url → Option (List UInt8)} (h : Right fetch known now) (url : Url) :
    Right fetch known (learnt fetch known url now) := by
  unfold Playlist.learnt
  split
  next key hkey => exact h.update hkey
  next => exact h

/-- The keys known in both ways. -/
structure Alike (fetch : Url → Except String (List UInt8)) (known : Url → Option (List UInt8)) (named : List Url) (a : Ahead)
    (now : Url → Option (List UInt8)) : Prop where
  waiting : Waiting fetch known named a
  same : a.known = now
  now : Right fetch known now

theorem get_alike {url : Url} (hurl : url ∈ named) {a : Ahead} {now : Url → Option (List UInt8)} (h : Alike fetch known named a now) :
    ((aheadKeys fetch).get url a).1 = ((plainKeys fetch).get url now).1 ∧
      Alike fetch known named ((aheadKeys fetch).get url a).2 ((plainKeys fetch).get url now).2 := by
  obtain ⟨hanswer, hwaiting, hsame⟩ := waitFor_spec hurl a.coming h.waiting
  rw [plain_get h.now url]
  simp only [aheadKeys]
  generalize waitFor fetch url a.coming a = got at hanswer hwaiting hsame
  obtain ⟨key, after⟩ := got
  obtain rfl : key = answer fetch known url := hanswer
  have hknown : after.known = now := Eq.trans hsame h.same
  have hnow := h.now.learnt url
  unfold learnt at hnow ⊢
  cases hkey : answer fetch known url with
  | error e => exact ⟨rfl, hwaiting, hknown, h.now⟩
  | ok key =>
    rw [hkey] at hnow
    exact ⟨rfl, ⟨hwaiting.cached, hwaiting.coming, hwaiting.named, hwaiting.late⟩, congrArg (Function.update · url (some key)) hknown, hnow⟩

/-- In whatever order the keys come, the walk makes of the playlist, and keeps of its keys, what it
would fetching each where it comes to it; and all it fetches it fetched ahead, each key once. -/
theorem walk_ahead (times : Times F) (join : Join) (fetch : Url → Except String (List UInt8)) (text : Text)
    (known : Url → Option (List UInt8)) {coming : List (Url × Except String (List UInt8))}
    (hcoming : coming.Perm (((keyUrls join text).filter fun url => (known url).isNone).map fun url => (url, fetch url))) :
    (walkMediaPlaylist times (aheadKeys fetch) join text (.start known coming)).1 =
        (walkMediaPlaylist times (plainKeys fetch) join text known).1 ∧
      (walkMediaPlaylist times (aheadKeys fetch) join text (.start known coming)).2.known =
        (walkMediaPlaylist times (plainKeys fetch) join text known).2 ∧
      (walkMediaPlaylist times (aheadKeys fetch) join text (.start known coming)).2.late = [] ∧ (coming.map (·.1)).Nodup := by
  have hnodup : (coming.map (·.1)).Nodup := by
    rw [(hcoming.map _).nodup_iff, List.map_map]
    exact (List.map_id _).symm ▸ (keyUrls_nodup join text).filter _
  have hstart : Alike fetch known (keyUrls join text) (.start known coming) known := by
    refine ⟨⟨?_, ?_, ?_, rfl⟩, rfl, right_refl⟩
    · intro url key hkey
      obtain ⟨found, hfound, rfl⟩ := Option.map_eq_some_iff.mp hkey
      rw [answer, hfound]
    · intro entry hentry
      obtain ⟨url, hurl, rfl⟩ := List.mem_map.mp (hcoming.mem_iff.mp hentry)
      have hnone : known url = none := Option.isNone_iff_eq_none.mp (List.mem_filter.mp hurl).2
      rw [answer, hnone]
    · intro url hurl
      cases hknown : known url with
      | some key =>
        left
        show ((known url).map _).isSome = true
        rw [hknown]
        rfl
      | none =>
        refine .inr ((hcoming.map _).mem_iff.mpr ?_)
        rw [List.map_map]
        exact List.mem_map.mpr ⟨url, List.mem_filter.mpr ⟨hurl, by rw [hknown]; rfl⟩, rfl⟩
  obtain ⟨hsame, halike⟩ := @walkLines_sim F times join (adWindows times text) _ _ _ _ _ _
    (fun line hline url hasks k k' h => get_alike (mem_keyUrls hline hasks) h) (Walk.start times) _ _ hstart
  exact ⟨congrArg (Except.map Walk.segments) hsame, halike.same, halike.waiting.late, hnodup⟩

/-- The second of two keys comes first. -/
theorem walk_ahead_reversed :
    (walkMediaPlaylist ticks (aheadKeys theKey) bare twoKeys
        (.start (fun _ => none) ((keyUrls bare twoKeys).map fun url => (url, theKey url)).reverse)).1 =
      (walkMediaPlaylist ticks (plainKeys theKey) bare twoKeys fun _ => none).1 := by
  have hcoming : ((keyUrls bare twoKeys).map fun url => (url, theKey url)).reverse.Perm
      (((keyUrls bare twoKeys).filter fun _ => (none : Option (List UInt8)).isNone).map fun url => (url, theKey url)) := by
    have hall : (keyUrls bare twoKeys).filter (fun _ => (none : Option (List UInt8)).isNone) = keyUrls bare twoKeys :=
      List.filter_eq_self.mpr fun _ _ => rfl
    rw [hall]
    exact List.reverse_perm _
  exact (walk_ahead ticks bare theKey twoKeys (fun _ => none) hcoming).1

end Hyperfetch.Hls.Playlist
