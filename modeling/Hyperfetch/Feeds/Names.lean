import Hyperfetch.Engine.Names
import Hyperfetch.Text
import Hyperfetch.Weft.Lowercase
import Hyperfetch.Weft.Numbered

/-!
# Names of a feed's episodes

feeds.rs: an episode's file is "YYYY-MM-DD Title.ext", with " (2)" and up added to a name that
an episode before it has, ignoring case. A name is cut nowhere but at its title, so one that is
free is always found (`chooseName_eq`).
-/

namespace Hyperfetch.Feeds

open Weft

/-- `MAX_FEED_BYTES`. -/
def maxFeedBytes : ℕ := 32 * 1024 * 1024

/-- `MAX_TITLE_BYTES`. -/
def maxTitleBytes : ℕ := 150

/-- Extensions of audio and video files an enclosure may have. -/
def mediaExtensions : List Text :=
  ["mp3", "m4a", "m4b", "aac", "ogg", "oga", "opus", "flac", "wav", "wma", "aif", "aiff", "amr", "mp2", "mka", "weba", "mp4", "m4v",
    "mov", "webm", "mkv", "avi", "wmv", "mpg", "mpeg", "3gp", "3g2", "ogv", "flv"].map String.toList

/-- A publication date: the day as the feed writes it, and the moment, which orders episodes. -/
structure Date where
  year : ℕ
  month : ℕ
  day : ℕ
  unix : ℤ
  year_mem : 1 ≤ year ∧ year ≤ 9999
  month_mem : 1 ≤ month ∧ month ≤ 12
  day_mem : 1 ≤ day ∧ day ≤ 31

structure Enclosure where
  url : Text
  extension : Text
  length : Option ℕ
  known : extension ∈ mediaExtensions

structure Episode where
  title : Text
  date : Option Date
  enclosure : Option Enclosure

/-- What other crates tell of links: a link without its secrets, the last part of its path, and
the digits of a digest of it. -/
structure Links where
  redact : Text → Text
  lastPart : Text → Option Text
  digest : Text → Text
  digest_hex : ∀ source, '/' ∉ digest source

/-- Why a listing stops. -/
inductive Stopped where
  | unusable (name : Text)
  /-- No name was free so far. -/
  | unended

/-- `title` cut to at most `MAX_TITLE_BYTES`, without the dots and spaces it would then end in. -/
def shorten (title : Text) : Text := (takeBytes maxTitleBytes title).rdropWhile isBlank

/-- The last part of a link without its extension. -/
def fileOfLink (lastPart : Option Text) : Text :=
  match lastPart with
  | some last =>
    match rsplitOnce '.' last with
    | some (stem, _) => stem
    | none => last
  | none => []

/-- What an episode is named after. -/
def episodeTitle (title file : Text) : Text := (([title, file].map shorten).find? fun t => !t.isEmpty).getD "Episode".toList

/-- `{:04}-{:02}-{:02} {}`, or the title alone. -/
def stemOf (date : Option Date) (title : Text) : Text :=
  match date with
  | some d => padded 4 d.year ++ '-' :: (padded 2 d.month ++ '-' :: (padded 2 d.day ++ ' ' :: title))
  | none => title

def suffixOf (n : ℕ) : Text := if n = 1 then [] else ' ' :: '(' :: (Nat.toDigits 10 n ++ [')'])

/-- The name tried `n`th, before it is cleaned. -/
def triedName (stem extension : Text) (n : ℕ) : Text := stem ++ suffixOf n ++ '.' :: extension

/-- `clean_path` of one component. -/
def cleanPath (name : Text) : Except Stopped Text := okOr (.unusable name) (cleanComponent name)

section

variable (T : CaseTables)

/-- The loop of `episode_name`: `taken` holds the names before it, in lower case. -/
def chooseName (taken : List Text) (stem extension : Text) : ℕ → ℕ → Except Stopped Text
  | 0, _ => .error .unended
  | fuel + 1, n => do
    let name ← cleanPath (triedName stem extension n)
    if lowercase T name ∈ taken then chooseName taken stem extension fuel (n + 1) else return name

def episodeName (fuel : ℕ) (title : Text) (date : Option Date) (extension : Text) (lastPart : Option Text) (taken : List Text) :
    Except Stopped Text :=
  chooseName T taken (stemOf date (episodeTitle title (fileOfLink lastPart))) extension fuel 1

end

/-! ## No name is cut -/

theorem byteLen_shorten (title : Text) : byteLen (shorten title) ≤ maxTitleBytes :=
  (byteLen_rdropWhile_le _ _).trans (byteLen_takeBytes_le _ _)

theorem byteLen_episodeTitle (title file : Text) : byteLen (episodeTitle title file) ≤ maxTitleBytes := by
  unfold episodeTitle
  cases hfind : ([title, file].map shorten).find? fun t => !t.isEmpty with
  | none =>
    show byteLen "Episode".toList ≤ _
    decide
  | some t =>
    obtain ⟨u, -, rfl⟩ := List.mem_map.mp (List.mem_of_find?_eq_some hfind)
    exact byteLen_shorten u

theorem byteLen_digits (n : ℕ) : byteLen (Nat.toDigits 10 n) = (Nat.toDigits 10 n).length := by
  refine byteLen_ascii ?_
  intro c hc
  exact (toLower_of_isDigit ((decimal_toDigits n).all c hc)).1

theorem byteLen_padded {width n : ℕ} (hwidth : 0 < width) (h : n < 10 ^ width) : byteLen (padded width n) = width := by
  rw [byteLen_ascii, length_padded hwidth h]
  intro c hc
  exact (toLower_of_isDigit ((decimal_padded width n).all c hc)).1

theorem byteLen_stemOf (date : Option Date) {title : Text} (h : byteLen title ≤ maxTitleBytes) :
    byteLen (stemOf date title) ≤ 11 + maxTitleBytes := by
  cases date with
  | none => exact h.trans (Nat.le_add_left _ _)
  | some d =>
    have hyear := d.year_mem
    have hmonth := d.month_mem
    have hday := d.day_mem
    have hhyphen : '-'.utf8Size = 1 := rfl
    have hspace : ' '.utf8Size = 1 := rfl
    unfold stemOf
    rw [byteLen_append, byteLen_cons, byteLen_append, byteLen_cons, byteLen_append, byteLen_cons,
      byteLen_padded (by decide) (by omega), byteLen_padded (by decide) (by omega), byteLen_padded (by decide) (by omega), hhyphen, hspace]
    omega

theorem byteLen_suffixOf {n : ℕ} (h : n < 10 ^ 10) : byteLen (suffixOf n) ≤ 13 := by
  unfold suffixOf
  split
  · exact Nat.zero_le _
  · have hlength := (Nat.length_toDigits_le_iff (b := 10) (k := 10) (by decide) (by decide)).mpr h
    have hspace : ' '.utf8Size = 1 := rfl
    have hopen : '('.utf8Size = 1 := rfl
    have hclose : byteLen [')'] = 1 := rfl
    rw [byteLen_cons, byteLen_cons, byteLen_append, byteLen_digits, hspace, hopen, hclose]
    omega

theorem byteLen_replaceInvalidChars (name : Text) : byteLen (replaceInvalidChars name) ≤ byteLen name := by
  induction name with
  | nil => exact le_rfl
  | cons c name ih =>
    show byteLen ((if isInvalid c then '_' else c) :: replaceInvalidChars name) ≤ _
    rw [byteLen_cons, byteLen_cons]
    have hone : '_'.utf8Size = 1 := rfl
    have hpos := c.utf8Size_pos
    split
    · rw [hone]
      omega
    · omega

/-- What is known of every extension. -/
theorem mediaExtensions_plain : ∀ e ∈ mediaExtensions, byteLen e ≤ 4 ∧ '(' ∉ e ∧ replaceInvalidChars e = e ∧
    ∃ c, e.getLast? = some c ∧ c ≠ '.' ∧ c ≠ ' ' := by
  have hall : ∀ e ∈ mediaExtensions, byteLen e ≤ 4 ∧ '(' ∉ e ∧ replaceInvalidChars e = e ∧ e.getLast? ≠ none ∧ e.getLast? ≠ some '.' ∧
      e.getLast? ≠ some ' ' := by decide
  intro e he
  obtain ⟨hlen, hparen, hvalid, hsome, hdot, hspace⟩ := hall e he
  obtain ⟨c, hc⟩ := Option.ne_none_iff_exists'.mp hsome
  rw [hc] at hdot hspace
  exact ⟨hlen, hparen, hvalid, c, hc, fun h => hdot (congrArg some h), fun h => hspace (congrArg some h)⟩

/-! ## The names that are tried -/

/-- The name tried `n`th, cleaned. -/
def cleanedName (stem extension : Text) (n : ℕ) : Text :=
  if isReserved (replaceInvalidChars stem ++ suffixOf n ++ '.' :: extension) then
    '_' :: (replaceInvalidChars stem ++ suffixOf n ++ '.' :: extension)
  else replaceInvalidChars stem ++ suffixOf n ++ '.' :: extension

theorem replaceInvalidChars_append (a b : Text) : replaceInvalidChars (a ++ b) = replaceInvalidChars a ++ replaceInvalidChars b :=
  List.map_append

theorem replaceInvalidChars_digits {d : Text} (hd : ∀ c ∈ d, c.isDigit = true) : replaceInvalidChars d = d := by
  induction d with
  | nil => rfl
  | cons c d ih =>
    have hc := hd c List.mem_cons_self
    have hrange := (isDigit_iff c).mp hc
    have hvalid : isInvalid c = false := by
      have hallowed : c ∉ forbidden := by
        intro hmem
        have hnone : forbidden.all (fun c => !c.isDigit) = true := rfl
        have hdigit := List.all_eq_true.mp hnone c hmem
        rw [hc] at hdigit
        cases hdigit
      simp only [isInvalid, isControl, Bool.or_eq_false_iff, List.contains_eq_mem, decide_eq_false_iff_not, Bool.and_eq_false_iff]
      exact ⟨hallowed, by omega, by omega⟩
    show (if isInvalid c then '_' else c) :: replaceInvalidChars d = _
    rw [hvalid, ih fun e he => hd e (List.mem_cons_of_mem c he)]
    rfl

theorem replaceInvalidChars_suffixOf (n : ℕ) : replaceInvalidChars (suffixOf n) = suffixOf n := by
  unfold suffixOf
  split
  · rfl
  · have hdigits := replaceInvalidChars_digits (decimal_toDigits n).all
    show ' ' :: '(' :: replaceInvalidChars (Nat.toDigits 10 n ++ [')']) = _
    rw [replaceInvalidChars_append, hdigits]
    rfl

theorem replaceInvalidChars_triedName {stem extension : Text} (hext : extension ∈ mediaExtensions) (n : ℕ) :
    replaceInvalidChars (triedName stem extension n) = replaceInvalidChars stem ++ suffixOf n ++ '.' :: extension := by
  have hvalid := (mediaExtensions_plain extension hext).2.2.1
  unfold triedName
  rw [replaceInvalidChars_append, replaceInvalidChars_append, replaceInvalidChars_suffixOf]
  show _ ++ '.' :: replaceInvalidChars extension = _
  rw [hvalid]

theorem cleanPath_triedName {stem extension : Text} (hstem : byteLen stem ≤ 11 + maxTitleBytes) (hext : extension ∈ mediaExtensions) {n : ℕ}
    (hn : n < 10 ^ 10) : cleanPath (triedName stem extension n) = .ok (cleanedName stem extension n) := by
  obtain ⟨hlen, -, -, c, hlast, hdot, hspace⟩ := mediaExtensions_plain extension hext
  have hne : replaceInvalidChars stem ++ suffixOf n ++ '.' :: extension ≠ [] := by simp
  -- its extension ends in neither a dot nor a space
  have hkept : ((replaceInvalidChars (triedName stem extension n)).rdropWhile fun c => c == '.' || c == ' ') =
      replaceInvalidChars stem ++ suffixOf n ++ '.' :: extension := by
    rw [replaceInvalidChars_triedName hext, List.rdropWhile_eq_self_iff]
    intro hne
    have hend : (replaceInvalidChars stem ++ suffixOf n ++ '.' :: extension).getLast hne = c := by
      have hget : (replaceInvalidChars stem ++ suffixOf n ++ '.' :: extension).getLast? = some c := by
        rw [List.getLast?_append, List.getLast?_cons, hlast]
        rfl
      exact Option.some.inj ((List.getLast?_eq_some_getLast hne).symm.trans hget)
    rw [hend]
    simp [hdot, hspace]
  -- and it is short enough
  have hshort : byteLen (cleanedName stem extension n) ≤ maxNameBytes := by
    have hreplaced := byteLen_replaceInvalidChars stem
    have hsuffix := byteLen_suffixOf hn
    have hunderscore : '_'.utf8Size = 1 := rfl
    have hpoint : '.'.utf8Size = 1 := rfl
    have hmax : maxTitleBytes = 150 := rfl
    have hname : byteLen (replaceInvalidChars stem ++ suffixOf n ++ '.' :: extension) ≤ 180 := by
      rw [byteLen_append, byteLen_append, byteLen_cons, hpoint]
      omega
    unfold cleanedName
    split
    · rw [byteLen_cons, hunderscore]
      show _ ≤ 200
      omega
    · show _ ≤ 200
      omega
  have hclean : sanitizeComponent (triedName stem extension n) = cleanedName stem extension n := by
    unfold sanitizeComponent finishName
    rw [hkept]
    show truncateName (cleanedName stem extension n) = _
    rw [truncateName, if_pos hshort]
  unfold cleanPath cleanComponent
  rw [hclean, if_neg]
  · rfl
  · unfold cleanedName
    split
    · exact List.cons_ne_nil _ _
    · exact hne

theorem cleanedName_split (stem extension : Text) {n : ℕ} (hn : 2 ≤ n) :
    ∃ front, cleanedName stem extension n = front ++ '(' :: (Nat.toDigits 10 n ++ ')' :: '.' :: extension) := by
  have hsuffix : suffixOf n = ' ' :: '(' :: (Nat.toDigits 10 n ++ [')']) := if_neg (by omega)
  unfold cleanedName
  rw [hsuffix]
  split
  · exact ⟨'_' :: (replaceInvalidChars stem ++ [' ']), by simp⟩
  · exact ⟨replaceInvalidChars stem ++ [' '], by simp⟩

/-- The names from the second on differ, ignoring case too. -/
theorem cleanedName_inj {T : CaseTables} {stem extension : Text} (hext : extension ∈ mediaExtensions) {m n : ℕ} (hm : 2 ≤ m) (hn : 2 ≤ n)
    (h : lowercase T (cleanedName stem extension m) = lowercase T (cleanedName stem extension n)) : m = n := by
  obtain ⟨front, hfront⟩ := cleanedName_split stem extension hm
  obtain ⟨front', hfront'⟩ := cleanedName_split stem extension hn
  have hparen : '(' ∉ '.' :: extension := by
    have hext := (mediaExtensions_plain extension hext).2.1
    simp [hext]
  rw [hfront, hfront'] at h
  have hdigits := lowercase_number (decimal_toDigits m).all (decimal_toDigits n).all hparen hparen h
  calc m = decimalValue (Nat.toDigits 10 m) := (decimal_toDigits m).value.symm
    _ = decimalValue (Nat.toDigits 10 n) := by rw [hdigits]
    _ = n := (decimal_toDigits n).value

/-- The first name that is free is chosen. -/
theorem chooseName_eq {T : CaseTables} {taken : List Text} {stem extension : Text} (hstem : byteLen stem ≤ 11 + maxTitleBytes)
    (hext : extension ∈ mediaExtensions) {m : ℕ} (hfirst : FirstFree (fun n => lowercase T (cleanedName stem extension n)) taken m)
    (hm : m < 10 ^ 10) {fuel n : ℕ} (hpos : 1 ≤ n) (hle : n ≤ m) (hfuel : m < n + fuel) :
    chooseName T taken stem extension fuel n = .ok (cleanedName stem extension m) := by
  induction fuel generalizing n with
  | zero => omega
  | succ fuel ih =>
    show (cleanPath (triedName stem extension n) >>= _) = _
    rw [cleanPath_triedName hstem hext (by omega)]
    show (if lowercase T (cleanedName stem extension n) ∈ taken then _ else Except.ok _) = _
    rcases Nat.eq_or_lt_of_le hle with rfl | hlt
    · rw [if_neg hfirst.free]
    · rw [if_pos (hfirst.before n hpos hlt)]
      exact ih (by omega) hlt (by omega)

end Hyperfetch.Feeds
