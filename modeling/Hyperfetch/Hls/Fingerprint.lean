import Hyperfetch.Hls.Resume
import Hyperfetch.Hls.Segments

/-!
# What identifies a list of segments (`Fingerprints::of`)

A fingerprint is the hash of a line per segment, its link and its range's header.
Nothing stands between the two, so a link that itself ends like a header passes
for a link with that range (`Passes`), and for nothing else: a header holds the
letter it begins with only there, so a line with a range is cut in one way
(`with_range_inj`).

Parameters: the hash, taken as injective, and a link up to its path's end. What is
hashed is ASCII, so a text stands for its bytes.
-/

namespace Hyperfetch.Hls

open Weft

namespace Vod

/-- `to_http_header`. -/
def toHttpHeader (r : ByteRange) : Text :=
  "bytes=".toList ++ Nat.toDigits 10 r.start ++ '-' :: Nat.toDigits 10 r.end_

/-- What `byte_range` adds to a line. -/
def rangeText (range : Option Bytes) : Text :=
  match range with
  | none => []
  | some r => toHttpHeader r.val

def exactLine (s : HlsSegment) : Text := s.url.text ++ rangeText s.byteRange

variable {φ : Type}

/-- `Fingerprints::of`. -/
def Fingerprints.of (hash : Text → φ) (upToPath : Url → Text) (playlist : Url) (segments : List HlsSegment) :
    Fingerprints φ where
  exact := hash (segments.flatMap fun s => exactLine s ++ ['\n'])
  stream := hash (upToPath playlist ++ '\n' :: segments.flatMap fun s => upToPath s.url ++ rangeText s.byteRange ++ ['\n'])

/-! ## Headers -/

theorem toHttpHeader_cons (r : ByteRange) : ∃ rest, toHttpHeader r = 'b' :: rest ∧ 'b' ∉ rest ∧ '\n' ∉ rest := by
  have hstart := decimal_toDigits r.start
  have hend := decimal_toDigits r.end_
  refine ⟨"ytes=".toList ++ Nat.toDigits 10 r.start ++ '-' :: Nat.toDigits 10 r.end_, rfl, ?_, ?_⟩
  all_goals
    simp only [List.mem_append, List.mem_cons, not_or]
    exact ⟨⟨by decide, hstart.not_mem (by decide)⟩, by decide, hend.not_mem (by decide)⟩

theorem toHttpHeader_inj {r r' : ByteRange} (h : toHttpHeader r = toHttpHeader r') : r = r' := by
  have hstart := decimal_toDigits r.start
  have hend := decimal_toDigits r.end_
  have h : "bytes=".toList ++ Nat.toDigits 10 r.start ++ '-' :: Nat.toDigits 10 r.end_ =
      "bytes=".toList ++ Nat.toDigits 10 r'.start ++ '-' :: Nat.toDigits 10 r'.end_ := h
  rw [List.append_assoc, List.append_assoc, List.append_cancel_left_eq,
    List.append_cons_inj_of_notMem (hstart.not_mem (by decide)) (hend.not_mem (by decide))] at h
  have hs : r.start = r'.start := by rw [← hstart.value, h.1, (decimal_toDigits r'.start).value]
  have he : r.end_ = r'.end_ := by rw [← hend.value, h.2.2, (decimal_toDigits r'.end_).value]
  cases r
  cases r'
  simp_all

theorem rangeText_no_break (range : Option Bytes) : '\n' ∉ rangeText range := by
  cases range with
  | none => exact List.not_mem_nil
  | some r =>
    obtain ⟨rest, hrest, -, hbreak⟩ := toHttpHeader_cons r.val
    rw [rangeText, hrest, List.mem_cons, not_or]
    exact ⟨by decide, hbreak⟩

theorem exactLine_no_break (s : HlsSegment) : '\n' ∉ exactLine s := by
  rw [exactLine, List.mem_append, not_or]
  exact ⟨s.url.no_break, rangeText_no_break s.byteRange⟩

/-- A link and a header are told apart: the header starts at the last `b`. -/
theorem with_range_inj {u u' : Text} {r r' : ByteRange} (h : u ++ toHttpHeader r = u' ++ toHttpHeader r') :
    u = u' ∧ r = r' := by
  obtain ⟨rest, hrest, hb, -⟩ := toHttpHeader_cons r
  obtain ⟨rest', hrest', hb', -⟩ := toHttpHeader_cons r'
  rw [hrest, hrest'] at h
  have hcut : rsplitOnce 'b' (u ++ 'b' :: rest) = some (u, rest) := rsplitOnce_eq_some.mpr ⟨rfl, hb⟩
  have hcut' : rsplitOnce 'b' (u' ++ 'b' :: rest') = some (u', rest') := rsplitOnce_eq_some.mpr ⟨rfl, hb'⟩
  rw [h, hcut'] at hcut
  obtain ⟨rfl, rfl⟩ := Prod.mk.inj (Option.some.inj hcut)
  exact ⟨rfl, toHttpHeader_inj (hrest.trans hrest'.symm)⟩

/-! ## Lines -/

/-- The link of `other`, which has no range, is that of `s` with the header of its range. -/
def Passes (other s : HlsSegment) : Prop :=
  other.byteRange = none ∧ ∃ r, s.byteRange = some r ∧ other.url.text = s.url.text ++ toHttpHeader r.val

/-- Two segments give one line where they are at one place, or one passes for the other. -/
theorem exactLine_eq_iff {s s' : HlsSegment} :
    exactLine s = exactLine s' ↔ s.place = s'.place ∨ Passes s s' ∨ Passes s' s := by
  have hurl : ∀ {u u' : Url}, u.text = u'.text → u = u' := by
    intro u u' h
    cases u
    cases u'
    simpa using h
  rcases hs : s.byteRange with - | r <;> rcases hs' : s'.byteRange with - | r'
  · simp only [exactLine, hs, hs', rangeText, List.append_nil, HlsSegment.place, Passes, Prod.mk.injEq, and_true,
      reduceCtorEq, false_and, exists_false, and_false, or_false]
    exact ⟨hurl, congrArg _⟩
  · simp [exactLine, hs, hs', rangeText, HlsSegment.place, Passes]
  · simp [exactLine, hs, hs', rangeText, HlsSegment.place, Passes, eq_comm]
  · simp only [exactLine, hs, hs', rangeText, HlsSegment.place, Passes, Prod.mk.injEq, reduceCtorEq, false_and, or_false,
      Option.some.injEq]
    constructor
    · intro h
      obtain ⟨hu, hr⟩ := with_range_inj h
      exact ⟨hurl hu, Subtype.ext hr⟩
    · rintro ⟨hu, rfl⟩
      rw [hu]

/-! ## Lists -/

/-- At each position the two lists have one place, or one segment passes for the
other; and somewhere one does. -/
def Disguised (segments segments' : List HlsSegment) : Prop :=
  List.Forall₂ (fun s s' => s.place = s'.place ∨ Passes s s' ∨ Passes s' s) segments segments' ∧
    ∃ pair ∈ segments.zip segments', Passes pair.1 pair.2 ∨ Passes pair.2 pair.1

theorem exact_eq_iff {hash : Text → φ} (hhash : Function.Injective hash) {upToPath : Url → Text}
    {playlist playlist' : Url} {segments segments' : List HlsSegment} :
    (Fingerprints.of hash upToPath playlist segments).exact = (Fingerprints.of hash upToPath playlist' segments').exact ↔
      List.Forall₂ (fun s s' => s.place = s'.place ∨ Passes s s' ∨ Passes s' s) segments segments' := by
  rw [Fingerprints.of, Fingerprints.of, hhash.eq_iff, flatMap_ended_inj exactLine_no_break exactLine_no_break]
  rw [← List.forall₂_eq_eq_eq, List.forall₂_map_left_iff, List.forall₂_map_right_iff]
  simp only [exactLine_eq_iff]

theorem Passes.place_ne {s s' : HlsSegment} (h : Passes s s' ∨ Passes s' s) : s.place ≠ s'.place := by
  intro heq
  have hrange : s.byteRange = s'.byteRange := congrArg Prod.snd heq
  rcases h with ⟨hnone, r, hr, -⟩ | ⟨hnone, r, hr, -⟩
  · simp [hnone, hr] at hrange
  · simp [hnone, hr] at hrange

/-- Equal exact fingerprints mean one list just where no link passes for another
with a range; and then a part is gone on from unchecked only with its own list. -/
theorem same_list_iff [DecidableEq φ] {hash : Text → φ} (hhash : Function.Injective hash) (upToPath : Url → Text)
    (playlist playlist' : Url) (segments segments' : List HlsSegment) :
    (((Fingerprints.of hash upToPath playlist segments).exact =
        (Fingerprints.of hash upToPath playlist' segments').exact → segments.map (·.place) = segments'.map (·.place)) ↔
      ¬Disguised segments segments') ∧
    (¬Disguised segments segments' → ∀ (track : Track φ) (state : ResumeState φ) (held : Held),
      track.state = some state → state.fingerprints = Fingerprints.of hash upToPath playlist segments →
      track.prepare segments'.length (Fingerprints.of hash upToPath playlist' segments') false = some held →
      held.1 ≠ 0 → segments.map (·.place) = segments'.map (·.place)) := by
  have hiff : ((Fingerprints.of hash upToPath playlist segments).exact =
        (Fingerprints.of hash upToPath playlist' segments').exact → segments.map (·.place) = segments'.map (·.place)) ↔
      ¬Disguised segments segments' := by
    rw [exact_eq_iff hhash]
    constructor
    · rintro h ⟨halike, pair, hpair, hpasses⟩
      have hsame := h halike
      rw [← List.forall₂_eq_eq_eq, List.forall₂_map_left_iff, List.forall₂_map_right_iff, List.forall₂_iff_zip] at hsame
      exact Passes.place_ne hpasses (hsame.2 hpair)
    · intro hplain halike
      rw [← List.forall₂_eq_eq_eq, List.forall₂_map_left_iff, List.forall₂_map_right_iff]
      have hzip := List.forall₂_iff_zip.mp halike
      refine List.forall₂_iff_zip.mpr ⟨hzip.1, fun {s s'} hmem => (hzip.2 hmem).resolve_right fun hpasses => ?_⟩
      exact hplain ⟨halike, (s, s'), hmem, hpasses⟩
  refine ⟨hiff, fun hplain track state held hstate hfingerprints hprepare hheld => hiff.mpr hplain ?_⟩
  unfold Track.prepare at hprepare
  split at hprepare
  · cases hprepare
    exact absurd rfl hheld
  · rw [hstate] at hprepare
    dsimp only at hprepare
    split at hprepare
    next hexact => rw [← hfingerprints, hexact]
    next =>
      rw [if_neg (by simp)] at hprepare
      cases hprepare

/-- A segment that is nothing but its place. -/
def placed (url : Url) (byteRange : Option Bytes) : HlsSegment where
  index := 0
  sequence := 0
  url := url
  byteRange := byteRange
  encryption := none
  init := none
  discontinuity := false

def firstBytes : Bytes := ⟨⟨0, 5⟩, by decide, by decide⟩

def plainLink : Url := ⟨"http://h/x".toList, by decide⟩

def headerLink : Url := ⟨"http://h/xbytes=0-5".toList, by decide⟩

/-- Lists without such a link. -/
theorem same_list_ranged :
    ¬Disguised [placed plainLink (some firstBytes)] [placed plainLink (some firstBytes)] ∧
      ((Fingerprints.of id Url.text plainLink [placed plainLink (some firstBytes)]).exact =
          (Fingerprints.of id Url.text headerLink [placed plainLink (some firstBytes)]).exact →
        [placed plainLink (some firstBytes)].map (·.place) = [placed plainLink (some firstBytes)].map (·.place)) := by
  have hplain : ¬Disguised [placed plainLink (some firstBytes)] [placed plainLink (some firstBytes)] := by
    rintro ⟨-, pair, hpair, hpasses⟩
    rw [List.zip_cons_cons, List.zip_nil_left, List.mem_singleton] at hpair
    simp [hpair, Passes, placed] at hpasses
  have hsame := same_list_iff Function.injective_id Url.text plainLink headerLink [placed plainLink (some firstBytes)]
    [placed plainLink (some firstBytes)]
  exact ⟨hplain, hsame.1.mpr hplain⟩

/-- The whole of a file named like a header, and the start of another: one
fingerprint. -/
theorem link_passes_for_range :
    (Fingerprints.of id Url.text plainLink [placed headerLink none]).exact =
        (Fingerprints.of id Url.text plainLink [placed plainLink (some firstBytes)]).exact ∧
      [placed headerLink none].map (·.place) ≠ [placed plainLink (some firstBytes)].map (·.place) := by
  decide

end Vod

end Hyperfetch.Hls
