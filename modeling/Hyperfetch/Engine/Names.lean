import Hyperfetch.Text
import Hyperfetch.Weft.Fields
import Hyperfetch.Weft.Strip
import Hyperfetch.Weft.Text

/-!
# Names of files (`sanitize_filename`, `sanitize_component`)

A name from outside made a path component: characters that may not stand in one
are replaced, dots and white space taken off the ends, a device name gets a `_`,
and what is longer than `MAX_NAME_BYTES` is cut, its extension kept.
-/

namespace Hyperfetch

open Weft

/-- `MAX_NAME_BYTES`. -/
def maxNameBytes : Nat := 200

/-- The characters Windows forbids in names. -/
def forbidden : Text := "<>:\"/\\|?*".toList

def isInvalid (c : Char) : Bool := forbidden.contains c || isControl c

/-- Replaces control characters and the characters Windows forbids in names with '_'. -/
def replaceInvalidChars (name : Text) : Text := name.map fun c => if isInvalid c then '_' else c

/-- The names Windows reserves for devices. -/
def deviceNames : List Text :=
  ["CON", "PRN", "AUX", "NUL", "COM1", "COM2", "COM3", "COM4", "COM5", "COM6", "COM7", "COM8", "COM9", "LPT1", "LPT2",
    "LPT3", "LPT4", "LPT5", "LPT6", "LPT7", "LPT8", "LPT9"].map String.toList

def isDevice (stem : Text) : Bool := deviceNames.contains (stem.map Char.toUpper)

/-- What is before the first dot. -/
def firstStem (name : Text) : Text := name.takeWhile (· != '.')

def isReserved (name : Text) : Bool := isDevice (firstStem name)

/-- White space and dots. -/
def isBlank (c : Char) : Bool := c == '.' || isWhite c

/-- What `truncate_name` cuts, and the extension it keeps. -/
def cutPoint (name : Text) : Text × Option Text :=
  match rsplitOnce '.' name with
  | some (stem, ext) => if !stem.isEmpty && byteLen ext ≤ 16 then (stem, some ext) else (name, none)
  | none => (name, none)

/-- The bytes there are for the stem. -/
def budget (ext : Option Text) : Nat := maxNameBytes - (ext.map fun e => byteLen e + 1).getD 0

/-- The stem as far as there are bytes for it. -/
def cutStem (name : Text) : Text := takeBytes (budget (cutPoint name).2) (cutPoint name).1

/-- Cuts `name` to at most `MAX_NAME_BYTES` on a character boundary, keeping a short extension. -/
def truncateName (name : Text) : Text :=
  if byteLen name ≤ maxNameBytes then name
  else
    let stem := (cutStem name).rdropWhile isBlank
    match (cutPoint name).2 with
    | some ext => stem ++ '.' :: ext
    | none => stem

/-- Prefixes names Windows reserves for devices with '_' and caps the length. -/
def finishName (name : Text) : Text := truncateName (if isReserved name then '_' :: name else name)

/-- A torrent's or metalink's name as a path component; leading dots stay. -/
def sanitizeComponent (name : Text) : Text :=
  finishName ((replaceInvalidChars name).rdropWhile fun c => c == '.' || c == ' ')

/-- `ingest::clean_component`: nothing is left of a name like "..". -/
def cleanComponent (name : Text) : Option Text :=
  if sanitizeComponent name = [] then none else some (sanitizeComponent name)

/-! ## What is left of a name -/

theorem replaceInvalidChars_valid {name : Text} {c : Char} (h : c ∈ replaceInvalidChars name) : isInvalid c = false := by
  obtain ⟨d, _, rfl⟩ := List.mem_map.mp h
  split
  · rfl
  · rename_i hd
    exact Bool.eq_false_iff.mpr hd

/-- A name over the limit, cut: its stem, and its extension if it keeps one. -/
theorem cutPoint_cases (name : Text) :
    (∃ stem ext, cutPoint name = (stem, some ext) ∧ name = stem ++ '.' :: ext ∧ '.' ∉ ext ∧ stem ≠ [] ∧ byteLen ext ≤ 16) ∨
      (cutPoint name = (name, none) ∧
        ∀ stem ext, name = stem ++ '.' :: ext → '.' ∉ ext → stem = [] ∨ 16 < byteLen ext) := by
  unfold cutPoint
  cases hcut : rsplitOnce '.' name with
  | none =>
    right
    refine ⟨rfl, ?_⟩
    rintro stem ext rfl _
    exact absurd (by simp) (rsplitOnce_eq_none.mp hcut)
  | some p =>
    obtain ⟨stem, ext⟩ := p
    obtain ⟨hname, hdot⟩ := rsplitOnce_eq_some.mp hcut
    dsimp only
    split
    · rename_i hgood
      simp only [Bool.and_eq_true, Bool.not_eq_true', List.isEmpty_eq_false_iff, decide_eq_true_eq] at hgood
      exact Or.inl ⟨stem, ext, rfl, hname, hdot, hgood.1, hgood.2⟩
    · rename_i hbad
      simp only [Bool.and_eq_true, Bool.not_eq_true', List.isEmpty_eq_false_iff, decide_eq_true_eq, not_and,
        Nat.not_le] at hbad
      right
      refine ⟨rfl, ?_⟩
      intro stem' ext' hname' hdot'
      have hsame : some (stem, ext) = some (stem', ext') := by
        rw [← hcut, rsplitOnce_eq_some]
        exact ⟨hname', hdot'⟩
      cases hsame
      by_cases hstem : stem = []
      · exact Or.inl hstem
      · exact Or.inr (hbad hstem)

theorem cutStem_subset {name : Text} {c : Char} (h : c ∈ (cutStem name).rdropWhile isBlank) : c ∈ name := by
  obtain ⟨back, hback, _⟩ := exists_rdropWhile isBlank (cutStem name)
  have hcut : c ∈ cutStem name := by
    rw [hback]
    exact List.mem_append_left _ h
  obtain ⟨rest, hrest⟩ := exists_takeBytes (budget (cutPoint name).2) (cutPoint name).1
  have hstem : c ∈ (cutPoint name).1 := by
    rw [hrest]
    exact List.mem_append_left _ hcut
  rcases cutPoint_cases name with ⟨stem, ext, hpoint, hname, _⟩ | ⟨hpoint, _⟩
  · rw [hpoint] at hstem
    rw [hname]
    exact List.mem_append_left _ hstem
  · rw [hpoint] at hstem
    exact hstem

/-- Cutting brings in no character. -/
theorem mem_truncateName {name : Text} {c : Char} (h : c ∈ truncateName name) : c ∈ name := by
  unfold truncateName at h
  split at h
  · exact h
  · dsimp only at h
    rcases cutPoint_cases name with ⟨stem, ext, hpoint, hname, _⟩ | ⟨hpoint, _⟩
    · rw [hpoint] at h
      rcases List.mem_append.mp h with h | h
      · exact cutStem_subset h
      · rw [hname]
        exact List.mem_append_right _ h
    · rw [hpoint] at h
      exact cutStem_subset h

theorem byteLen_rdropWhile_le (p : Char → Bool) (text : Text) : byteLen (text.rdropWhile p) ≤ byteLen text := by
  obtain ⟨back, hback, _⟩ := exists_rdropWhile p text
  have hlen := congrArg byteLen hback
  rw [byteLen_append] at hlen
  omega

theorem byteLen_truncateName_le (name : Text) : byteLen (truncateName name) ≤ maxNameBytes := by
  unfold truncateName
  split
  · assumption
  · have hcut : byteLen ((cutStem name).rdropWhile isBlank) ≤ budget (cutPoint name).2 :=
      Nat.le_trans (byteLen_rdropWhile_le _ _) (byteLen_takeBytes_le _ _)
    dsimp only
    rcases cutPoint_cases name with ⟨stem, ext, hpoint, _, _, _, hext⟩ | ⟨hpoint, _⟩
    · rw [hpoint] at hcut ⊢
      have hdot : Char.utf8Size '.' = 1 := rfl
      have hbudget : budget (some ext) = maxNameBytes - (byteLen ext + 1) := rfl
      have hmax : maxNameBytes = 200 := rfl
      show byteLen ((cutStem name).rdropWhile isBlank ++ '.' :: ext) ≤ maxNameBytes
      rw [byteLen_append, byteLen_cons]
      change _ ≤ budget (some ext) at hcut
      omega
    · rw [hpoint] at hcut ⊢
      exact hcut

/-- How a name ends is how it ended: not in a dot or a space, if it did not. -/
theorem getLast_truncateName {name : Text} (hlast : ∀ c, name.getLast? = some c → c ≠ '.' ∧ c ≠ ' ') {c : Char}
    (h : (truncateName name).getLast? = some c) : c ≠ '.' ∧ c ≠ ' ' := by
  unfold truncateName at h
  split at h
  · exact hlast c h
  · dsimp only at h
    rcases cutPoint_cases name with ⟨stem, ext, hpoint, hname, hdot, _, _⟩ | ⟨hpoint, _⟩
    · rw [hpoint] at h
      apply hlast c
      rw [hname, List.getLast?_append]
      rw [List.getLast?_append] at h
      exact h
    · rw [hpoint] at h
      have hblank := getLast_rdropWhile h
      constructor
      · rintro rfl
        cases hblank
      · rintro rfl
        cases hblank

/-! ## Components of a path -/

/-- One component of a path below some folder, on any system. -/
structure SafeComponent (name : Text) : Prop where
  nonempty : name ≠ []
  /-- No separator, control character or character Windows forbids. -/
  valid : ∀ c ∈ name, c ≠ '/' ∧ c ≠ '\\' ∧ isInvalid c = false
  notHere : name ≠ ['.']
  notUp : name ≠ ['.', '.']
  last : ∀ c, name.getLast? = some c → c ≠ '.' ∧ c ≠ ' '
  short : byteLen name ≤ maxNameBytes

theorem not_separator {c : Char} (h : isInvalid c = false) : c ≠ '/' ∧ c ≠ '\\' := by
  constructor
  · rintro rfl
    cases h
  · rintro rfl
    cases h

theorem sanitizeComponent_safe {name : Text} (h : sanitizeComponent name ≠ []) : SafeComponent (sanitizeComponent name) := by
  generalize hbase : (replaceInvalidChars name).rdropWhile (fun c => c == '.' || c == ' ') = base
  have hsame : sanitizeComponent name = truncateName (if isReserved base then '_' :: base else base) := by
    rw [sanitizeComponent, hbase, finishName]
  have hbaseLast : ∀ c, base.getLast? = some c → c ≠ '.' ∧ c ≠ ' ' := by
    intro c hc
    rw [← hbase] at hc
    have hnot := getLast_rdropWhile hc
    simp only [Bool.or_eq_false_iff, beq_eq_false_iff_ne] at hnot
    exact hnot
  have hbaseValid : ∀ c ∈ base, isInvalid c = false := by
    intro c hc
    obtain ⟨back, hback, _⟩ := exists_rdropWhile (fun c => c == '.' || c == ' ') (replaceInvalidChars name)
    rw [hbase] at hback
    apply @replaceInvalidChars_valid name
    rw [hback]
    exact List.mem_append_left _ hc
  -- the underscore before a device name changes neither
  generalize hwhole : (if isReserved base then '_' :: base else base) = whole at hsame
  have hwholeLast : ∀ c, whole.getLast? = some c → c ≠ '.' ∧ c ≠ ' ' := by
    intro c hc
    rw [← hwhole] at hc
    split at hc
    · cases base with
      | nil =>
        cases hc
        exact ⟨by decide, by decide⟩
      | cons d base =>
        rw [List.getLast?_cons_cons] at hc
        exact hbaseLast c hc
    · exact hbaseLast c hc
  have hwholeValid : ∀ c ∈ whole, isInvalid c = false := by
    intro c hc
    rw [← hwhole] at hc
    split at hc
    · rcases List.mem_cons.mp hc with rfl | hc
      · rfl
      · exact hbaseValid c hc
    · exact hbaseValid c hc
  have hlast : ∀ c, (sanitizeComponent name).getLast? = some c → c ≠ '.' ∧ c ≠ ' ' := by
    intro c hc
    rw [hsame] at hc
    exact getLast_truncateName hwholeLast hc
  refine ⟨h, ?_, ?_, ?_, hlast, ?_⟩
  · intro c hc
    rw [hsame] at hc
    have hinvalid := hwholeValid c (mem_truncateName hc)
    exact ⟨(not_separator hinvalid).1, (not_separator hinvalid).2, hinvalid⟩
  · intro hdot
    rw [hdot] at hlast
    exact (hlast '.' rfl).1 rfl
  · intro hup
    rw [hup] at hlast
    exact (hlast '.' rfl).1 rfl
  · rw [hsame]
    exact byteLen_truncateName_le _

end Hyperfetch
