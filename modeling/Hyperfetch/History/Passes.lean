import Hyperfetch.History.Scrub
import Mathlib.Data.List.Forall2

/-!
# What one pass of `scrub` does

What is relied on of the `url` crate (`UrlCrate.Lawful`), what becomes of a pair
(`Outcome`) and of a link (`Became`), that a second pass leaves a text as it is
(`scrub_calms`), and that fuel for its length is enough (`scrub_isSome`).
-/

namespace Hyperfetch.History

open Weft

/-! ## Texts cut and joined -/

theorem Scrubbed.after_none {s : Scrubbed} (h : s.owned = none) (text : Text) : s.after text = text := by
  rw [Scrubbed.after, h]
  rfl

theorem Scrubbed.after_some {s : Scrubbed} {new : Text} (h : s.owned = some new) (text : Text) : s.after text = new := by
  rw [Scrubbed.after, h]
  rfl

theorem rejoin_owned_eq_none {sep : Char} {rows : List (Text × Scrubbed)} :
    (rejoin sep rows).owned = none ↔ ∀ row ∈ rows, row.2.owned = none := by
  unfold rejoin
  simp

theorem rejoin_marked {sep : Char} {rows : List (Text × Scrubbed)} :
    (rejoin sep rows).marked = true ↔ ∃ row ∈ rows, row.2.marked = true := by
  unfold rejoin
  simp

/-- What was joined is cut where it was. -/
theorem splitOn_rejoin {sep : Char} {rows : List (Text × Scrubbed)} {text : Text}
    (hcut : rows.map Prod.fst = text.splitOn sep) (hsep : ∀ row ∈ rows, sep ∉ row.2.after row.1) :
    ((rejoin sep rows).after text).splitOn sep = rows.map fun row => row.2.after row.1 := by
  by_cases hnone : ∀ row ∈ rows, row.2.owned = none
  · rw [Scrubbed.after_none (rejoin_owned_eq_none.mpr hnone), ← hcut]
    apply List.map_congr_left
    intro row hrow
    exact (Scrubbed.after_none (hnone row hrow) _).symm
  · have hany : rows.any (·.2.owned.isSome) = true := by
      rw [List.any_eq_true]
      by_contra hall
      exact hnone fun row hrow => Option.not_isSome_iff_eq_none.mp fun h => hall ⟨row, hrow, h⟩
    have howned : (rejoin sep rows).owned = some ([sep].intercalate (rows.map fun row => row.2.after row.1)) := if_pos hany
    rw [Scrubbed.after_some howned]
    apply List.splitOn_intercalate
    · intro part hpart
      obtain ⟨row, hrow, rfl⟩ := List.mem_map.mp hpart
      exact hsep row hrow
    · intro hnil
      rw [List.map_eq_nil_iff] at hnil
      subst hnil
      exact List.splitOn_ne_nil sep text hcut.symm

/-- A character joined in is of a part, or the separator. -/
theorem mem_rejoin {sep : Char} {rows : List (Text × Scrubbed)} {new : Text} (h : (rejoin sep rows).owned = some new)
    {c : Char} (hc : c ∈ new) : c = sep ∨ ∃ row ∈ rows, c ∈ row.2.after row.1 := by
  unfold rejoin at h
  dsimp only at h
  split at h
  · cases h
    rcases mem_intercalate hc with h | ⟨part, hpart, hc⟩
    · exact Or.inl h
    · obtain ⟨row, hrow, rfl⟩ := List.mem_map.mp hpart
      exact Or.inr ⟨row, hrow, hc⟩
  · cases h

/-! ## The pairs of a text -/

theorem mapM_rows {f : Text → Option Scrubbed} {parts : List Text} {rows : List (Text × Scrubbed)} :
    (parts.mapM fun part => (f part).map fun s => (part, s)) = some rows ↔
      rows.map Prod.fst = parts ∧ ∀ row ∈ rows, f row.1 = some row.2 := by
  induction parts generalizing rows with
  | nil =>
    rw [List.mapM_nil, List.map_eq_nil_iff]
    constructor
    · intro h
      cases h
      exact ⟨rfl, fun row hrow => absurd hrow List.not_mem_nil⟩
    · rintro ⟨rfl, _⟩
      rfl
  | cons part parts ih =>
    rw [List.mapM_cons]
    simp only [Option.bind_eq_bind, Option.bind_eq_some_iff, Option.pure_def, Option.map_eq_some_iff]
    constructor
    · rintro ⟨_, ⟨s, hs, rfl⟩, more, hmore, hrows⟩
      cases hrows
      obtain ⟨hcut, hall⟩ := ih.mp hmore
      refine ⟨by rw [List.map_cons, hcut], ?_⟩
      intro row hrow
      rcases List.mem_cons.mp hrow with rfl | hrow
      · exact hs
      · exact hall row hrow
    · rintro ⟨hcut, hall⟩
      cases rows with
      | nil => cases hcut
      | cons row rows =>
        cases hcut
        exact ⟨_, ⟨row.2, hall row List.mem_cons_self, rfl⟩, rows,
          ih.mpr ⟨rfl, fun r hr => hall r (List.mem_cons_of_mem _ hr)⟩, rfl⟩

theorem mapM_rows_isSome {f : Text → Option Scrubbed} {parts : List Text} (h : ∀ part ∈ parts, ∃ s, f part = some s) :
    ∃ rows, (parts.mapM fun part => (f part).map fun s => (part, s)) = some rows := by
  induction parts with
  | nil => exact ⟨[], rfl⟩
  | cons part parts ih =>
    obtain ⟨s, hs⟩ := h part List.mem_cons_self
    obtain ⟨rows, hrows⟩ := ih fun p hp => h p (List.mem_cons_of_mem _ hp)
    refine ⟨(part, s) :: rows, ?_⟩
    rw [List.mapM_cons, hs, hrows]
    rfl

section Pairs

variable {recur : Text → Option Scrubbed} {names : List Text}

theorem scrubPairs_eq_some {pairs : Text} {s : Scrubbed} :
    scrubPairs recur names pairs = some s ↔
      ∃ rows : List (Text × Scrubbed), rows.map Prod.fst = pairs.splitOn '&' ∧
        (∀ row ∈ rows, scrubPair recur names row.1 = some row.2) ∧ rejoin '&' rows = s := by
  unfold scrubPairs
  simp only [Option.map_eq_some_iff, mapM_rows, and_assoc]

theorem scrubPairs_isSome {pairs : Text} (h : ∀ pair ∈ pairs.splitOn '&', ∃ s, scrubPair recur names pair = some s) :
    ∃ s, scrubPairs recur names pairs = some s := by
  obtain ⟨rows, hrows⟩ := mapM_rows_isSome h
  exact ⟨rejoin '&' rows, by rw [scrubPairs, hrows]; rfl⟩

/-- What scrubs more links scrubs the same pairs the same way. -/
theorem scrubPairs_mono {recur' : Text → Option Scrubbed} (hmore : ∀ t s, recur t = some s → recur' t = some s)
    {pairs : Text} {s : Scrubbed} (h : scrubPairs recur names pairs = some s) :
    scrubPairs recur' names pairs = some s := by
  obtain ⟨rows, hcut, hrows, rfl⟩ := scrubPairs_eq_some.mp h
  refine scrubPairs_eq_some.mpr ⟨rows, hcut, ?_, rfl⟩
  intro row hrow
  have hpair := hrows row hrow
  unfold scrubPair at hpair ⊢
  split at hpair
  · exact hpair
  · rename_i name value _
    dsimp only at hpair ⊢
    split at hpair
    · rename_i hsecret
      rw [if_pos hsecret]
      exact hpair
    · rename_i hsecret
      rw [if_neg hsecret]
      split at hpair
      · rename_i hvalue
        rw [if_pos hvalue]
        exact hpair
      · rename_i hvalue
        rw [if_neg hvalue]
        split at hpair
        · rename_i hlink
          rw [if_pos hlink]
          obtain ⟨inner, hinner, hs⟩ := Option.map_eq_some_iff.mp hpair
          exact Option.map_eq_some_iff.mpr ⟨inner, hmore value inner hinner, hs⟩
        · rename_i hlink
          rw [if_neg hlink]
          exact hpair

theorem not_mem_rawName (pair : Text) : '=' ∉ rawName pair := by
  unfold rawName
  cases hcut : splitOnce '=' pair with
  | none => exact splitOnce_eq_none.mp hcut
  | some row => exact (splitOnce_eq_some.mp hcut).2

theorem rawName_subset {pair : Text} {c : Char} (hc : c ∈ rawName pair) : c ∈ pair := by
  unfold rawName at hc
  cases hcut : splitOnce '=' pair with
  | none =>
    rw [hcut] at hc
    exact hc
  | some row =>
    rw [hcut] at hc
    rw [(splitOnce_eq_some.mp hcut).1]
    exact List.mem_append_left _ hc

theorem formPair_name {pair name value : Text} (h : formPair pair = some (name, value)) :
    name = Percent.decode (rawName pair) := by
  unfold formPair at h
  unfold rawName
  split at h
  · cases h
  · cases hcut : splitOnce '=' pair with
    | none =>
      rw [hcut] at h
      cases h
      rfl
    | some row =>
      rw [hcut] at h
      cases h
      rfl

/-- A pair written with a new value. -/
theorem formPair_rewritten (pair value : Text) :
    formPair (rawName pair ++ '=' :: value) = some (Percent.decode (rawName pair), Percent.decode value) := by
  have hcut : splitOnce '=' (rawName pair ++ '=' :: value) = some (rawName pair, value) :=
    splitOnce_eq_some.mpr ⟨rfl, not_mem_rawName pair⟩
  have hne : (rawName pair ++ '=' :: value).isEmpty = false := by
    cases rawName pair <;> rfl
  rw [formPair, hne, hcut]
  rfl

theorem decode_redacted : Percent.decode redacted = redacted := by
  have hsame : Percent.byteSerialize (Utf8.encode redacted) = redacted := by decide
  have hback := Percent.decode_byteSerialize redacted
  rw [hsame] at hback
  exact hback

/-- The characters that come into a text of pairs. -/
def pairChar (c : Char) : Bool := c == '=' || c == '&' || Percent.safe c

/-- What became of one pair: nothing, or a new value under the same name. -/
inductive Outcome (recur : Text → Option Scrubbed) (names : List Text) (pair : Text) : Scrubbed → Prop
  /-- There is no pair. -/
  | empty : formPair pair = none → Outcome recur names pair {}
  | already (name value : Text) : formPair pair = some (name, value) → secretParam name names = true →
      value = redacted → Outcome recur names pair { marked := true }
  | hidden (name value : Text) : formPair pair = some (name, value) → secretParam name names = true →
      Outcome recur names pair { owned := some (rawName pair ++ '=' :: redacted) }
  | carried (name value : Text) (inner : Scrubbed) : formPair pair = some (name, value) →
      (secretParam name names = true → value = []) → schemeMark <:+: value → recur value = some inner →
      Outcome recur names pair
        { owned := inner.owned.map fun link => rawName pair ++ '=' :: Percent.byteSerialize (Utf8.encode link)
          marked := inner.marked }
  | plain (name value : Text) : formPair pair = some (name, value) →
      (secretParam name names = true → value = []) → ¬ schemeMark <:+: value → Outcome recur names pair {}

theorem scrubPair_outcome {pair : Text} {s : Scrubbed} (h : scrubPair recur names pair = some s) :
    Outcome recur names pair s := by
  unfold scrubPair at h
  split at h
  · rename_i hnone
    cases h
    exact Outcome.empty hnone
  · rename_i name value hpair
    dsimp only at h
    split at h
    · rename_i hsecret
      rw [Bool.and_eq_true, beq_iff_eq] at hsecret
      cases h
      exact Outcome.already name value hpair hsecret.1 hsecret.2
    · split at h
      · rename_i hsecret
        rw [Bool.and_eq_true] at hsecret
        cases h
        exact Outcome.hidden name value hpair hsecret.1
      · rename_i hempty
        have hvalue : secretParam name names = true → value = [] := by
          intro hsecret
          rw [hsecret, Bool.true_and, Bool.not_eq_true', Bool.not_eq_false, List.isEmpty_iff] at hempty
          exact hempty
        split at h
        · rename_i hlink
          obtain ⟨inner, hinner, rfl⟩ := Option.map_eq_some_iff.mp h
          exact Outcome.carried name value inner hpair hvalue hlink hinner
        · rename_i hlink
          cases h
          exact Outcome.plain name value hpair hvalue hlink

theorem scrubPair_isSome {pair : Text} (h : ∀ name value, formPair pair = some (name, value) → ∃ s, recur value = some s) :
    ∃ s, scrubPair recur names pair = some s := by
  unfold scrubPair
  split
  · exact ⟨{}, rfl⟩
  · rename_i name value hpair
    obtain ⟨inner, hinner⟩ := h name value hpair
    dsimp only
    rw [hinner]
    split
    · exact ⟨_, rfl⟩
    · split
      · exact ⟨_, rfl⟩
      · split
        · exact ⟨_, rfl⟩
        · exact ⟨_, rfl⟩

/-! ### A second time -/

/-- What was scrubbed is left as it is. -/
def Calms (recur : Text → Option Scrubbed) : Prop :=
  ∀ t s, recur t = some s → ∃ m, recur (s.after t) = some { owned := none, marked := m }

theorem scrubPair_again (hcalm : Calms recur) {pair : Text} {s : Scrubbed} (h : scrubPair recur names pair = some s) :
    ∃ m, scrubPair recur names (s.after pair) = some { owned := none, marked := m } := by
  cases howned : s.owned with
  | none =>
    rw [Scrubbed.after_none howned]
    exact ⟨s.marked, by rw [h, ← howned]⟩
  | some new =>
    rw [Scrubbed.after_some howned]
    cases scrubPair_outcome h with
    | empty => cases howned
    | already => cases howned
    | plain => cases howned
    | hidden name value hpair hsecret =>
      cases howned
      have hnew := formPair_rewritten pair redacted
      rw [← formPair_name hpair, decode_redacted] at hnew
      refine ⟨true, ?_⟩
      rw [scrubPair, hnew]
      dsimp only
      rw [hsecret]
      rfl
    | carried name value inner hpair hvalue hlink hinner =>
      obtain ⟨link, hlinked, rfl⟩ := Option.map_eq_some_iff.mp howned
      have hnew := formPair_rewritten pair (Percent.byteSerialize (Utf8.encode link))
      rw [← formPair_name hpair, Percent.decode_byteSerialize] at hnew
      obtain ⟨m, hagain⟩ := hcalm value inner hinner
      rw [Scrubbed.after_some hlinked] at hagain
      -- a secret pair has no value that could carry a link
      have hplain : secretParam name names = false := by
        by_contra hsecret
        rw [hvalue (Bool.not_eq_false _ ▸ hsecret)] at hlink
        exact absurd (List.eq_nil_of_infix_nil hlink) (by decide)
      rw [scrubPair, hnew]
      dsimp only
      rw [hplain, Bool.false_and, Bool.false_and, if_neg Bool.false_ne_true, if_neg Bool.false_ne_true, hagain]
      split
      · exact ⟨m, rfl⟩
      · exact ⟨false, rfl⟩

theorem mem_after {pair : Text} {s : Scrubbed} (h : scrubPair recur names pair = some s) {c : Char}
    (hc : c ∈ s.after pair) : c ∈ pair ∨ c = '=' ∨ Percent.safe c = true := by
  cases howned : s.owned with
  | none =>
    rw [Scrubbed.after_none howned] at hc
    exact Or.inl hc
  | some new =>
    rw [Scrubbed.after_some howned] at hc
    cases scrubPair_outcome h with
    | empty => cases howned
    | already => cases howned
    | plain => cases howned
    | hidden =>
      cases howned
      rcases List.mem_append.mp hc with hc | hc
      · exact Or.inl (rawName_subset hc)
      · rcases List.mem_cons.mp hc with hc | hc
        · exact Or.inr (Or.inl hc)
        · have hall : redacted.all Percent.safe = true := by decide
          exact Or.inr (Or.inr (List.all_eq_true.mp hall c hc))
    | carried =>
      obtain ⟨link, _, rfl⟩ := Option.map_eq_some_iff.mp howned
      rcases List.mem_append.mp hc with hc | hc
      · exact Or.inl (rawName_subset hc)
      · rcases List.mem_cons.mp hc with hc | hc
        · exact Or.inr (Or.inl hc)
        · exact Or.inr (Or.inr (Percent.safe_byteSerialize hc))

theorem ampersand_not_mem_after {pair : Text} {s : Scrubbed} (h : scrubPair recur names pair = some s)
    (hpair : '&' ∉ pair) : '&' ∉ s.after pair := by
  intro hin
  rcases mem_after h hin with hin | hin | hin
  · exact hpair hin
  · cases hin
  · exact absurd hin (by decide)

/-- The pairs after, in order: what each became. -/
theorem splitOn_scrubPairs {pairs : Text} {rows : List (Text × Scrubbed)} (hcut : rows.map Prod.fst = pairs.splitOn '&')
    (hrows : ∀ row ∈ rows, scrubPair recur names row.1 = some row.2) :
    ((rejoin '&' rows).after pairs).splitOn '&' = rows.map fun row => row.2.after row.1 := by
  apply splitOn_rejoin hcut
  intro row hrow
  apply ampersand_not_mem_after (hrows row hrow)
  have hpart : row.1 ∈ pairs.splitOn '&' := by
    rw [← hcut]
    exact List.mem_map_of_mem hrow
  exact mem_splitOn hpart

theorem scrubPairs_again (hcalm : Calms recur) {pairs : Text} {s : Scrubbed} (h : scrubPairs recur names pairs = some s) :
    ∃ m, scrubPairs recur names (s.after pairs) = some { owned := none, marked := m } := by
  obtain ⟨rows, hcut, hrows, rfl⟩ := scrubPairs_eq_some.mp h
  have hafter := splitOn_scrubPairs hcut hrows
  have hcalmed : ∀ pair ∈ ((rejoin '&' rows).after pairs).splitOn '&',
      ∃ m, scrubPair recur names pair = some { owned := none, marked := m } := by
    intro pair hpair
    rw [hafter] at hpair
    obtain ⟨row, hrow, rfl⟩ := List.mem_map.mp hpair
    exact scrubPair_again hcalm (hrows row hrow)
  obtain ⟨again, hagain⟩ := scrubPairs_isSome fun pair hpair =>
    let ⟨m, hm⟩ := hcalmed pair hpair
    ⟨{ owned := none, marked := m }, hm⟩
  obtain ⟨rows', hcut', hrows', rfl⟩ := scrubPairs_eq_some.mp hagain
  have hnone : (rejoin '&' rows').owned = none := by
    rw [rejoin_owned_eq_none]
    intro row hrow
    have hpart : row.1 ∈ ((rejoin '&' rows).after pairs).splitOn '&' := by
      rw [← hcut']
      exact List.mem_map_of_mem hrow
    obtain ⟨m, hm⟩ := hcalmed row.1 hpart
    rw [hrows' row hrow, Option.some_inj] at hm
    rw [hm]
  exact ⟨(rejoin '&' rows').marked, by rw [hagain, ← hnone]⟩

theorem mem_scrubPairs {pairs new : Text} {s : Scrubbed} (h : scrubPairs recur names pairs = some s)
    (hnew : s.owned = some new) {c : Char} (hc : c ∈ new) : c ∈ pairs ∨ pairChar c = true := by
  obtain ⟨rows, hcut, hrows, rfl⟩ := scrubPairs_eq_some.mp h
  rcases mem_rejoin hnew hc with rfl | ⟨row, hrow, hc⟩
  · exact Or.inr rfl
  · rcases mem_after (hrows row hrow) hc with hc | rfl | hc
    · left
      have hpart : row.1 ∈ pairs.splitOn '&' := by
        rw [← hcut]
        exact List.mem_map_of_mem hrow
      exact mem_of_mem_splitOn hpart hc
    · exact Or.inr rfl
    · right
      rw [pairChar, hc, Bool.or_true]

end Pairs

/-! ## Bot tokens -/

theorem botToken_eq_some {segment id token : Text} (h : botToken segment = some (id, token)) :
    segment = 'b' :: 'o' :: 't' :: (id ++ ':' :: token) ∧ id ≠ [] ∧ id.all Char.isDigit = true ∧ token ≠ [] := by
  unfold botToken at h
  split at h
  · obtain ⟨hcut, hgood⟩ := Option.filter_eq_some_iff.mp h
    simp only [Bool.and_eq_true, Bool.not_eq_true', List.isEmpty_eq_false_iff] at hgood
    exact ⟨by rw [(splitOnce_eq_some.mp hcut).1], hgood.1.1, hgood.1.2, hgood.2⟩
  · cases h

theorem botToken_hidden {id : Text} (hne : id ≠ []) (hdigits : id.all Char.isDigit = true) :
    botToken ('b' :: 'o' :: 't' :: (id ++ ':' :: redacted)) = some (id, redacted) := by
  have hcolon : ':' ∉ id := by
    intro hin
    have hdigit := List.all_eq_true.mp hdigits ':' hin
    cases hdigit
  refine Option.filter_eq_some_iff.mpr ⟨splitOnce_eq_some.mpr ⟨rfl, hcolon⟩, ?_⟩
  have hempty : id.isEmpty = false := List.isEmpty_eq_false_iff.mpr hne
  show (!id.isEmpty && id.all Char.isDigit && !redacted.isEmpty) = true
  rw [hempty, hdigits]
  rfl

/-- A segment stays, or its token becomes `REDACTED`. -/
theorem scrubSegment_cases (segment : Text) :
    (scrubSegment segment).owned = none ∨
      ∃ id token, botToken segment = some (id, token) ∧ id ≠ [] ∧ id.all Char.isDigit = true ∧
        (scrubSegment segment).owned = some ('b' :: 'o' :: 't' :: (id ++ ':' :: redacted)) := by
  unfold scrubSegment
  split
  · exact Or.inl rfl
  · rename_i id token hbot
    split
    · exact Or.inl rfl
    · obtain ⟨_, hne, hdigits, _⟩ := botToken_eq_some hbot
      exact Or.inr ⟨id, token, hbot, hne, hdigits, rfl⟩

theorem scrubSegment_hidden {id : Text} (hne : id ≠ []) (hdigits : id.all Char.isDigit = true) :
    scrubSegment ('b' :: 'o' :: 't' :: (id ++ ':' :: redacted)) = { marked := true } := by
  have hbot := botToken_hidden hne hdigits
  generalize 'b' :: 'o' :: 't' :: (id ++ ':' :: redacted) = segment at hbot ⊢
  unfold scrubSegment
  rw [hbot]
  exact if_pos rfl

theorem scrubSegment_again (segment : Text) : (scrubSegment ((scrubSegment segment).after segment)).owned = none := by
  rcases scrubSegment_cases segment with hnone | ⟨id, _, _, hne, hdigits, hnew⟩
  · rw [Scrubbed.after_none hnone, hnone]
  · rw [Scrubbed.after_some hnew, scrubSegment_hidden hne hdigits]

/-- The segments of a path stay, but for the tokens in them. -/
def Retokened (path new : Text) : Prop :=
  List.Forall₂ (fun segment s => s = segment ∨
    ∃ id token, botToken segment = some (id, token) ∧ s = 'b' :: 'o' :: 't' :: (id ++ ':' :: redacted))
    (path.splitOn '/') (new.splitOn '/')

theorem splitOn_scrubBotToken (path : Text) :
    ((scrubBotToken path).after path).splitOn '/' =
      (path.splitOn '/').map fun segment => (scrubSegment segment).after segment := by
  have hrows := @splitOn_rejoin '/' ((path.splitOn '/').map fun segment => (segment, scrubSegment segment)) path
    (by rw [List.map_map]; exact List.map_id _) ?_
  · rw [scrubBotToken, hrows, List.map_map]
    rfl
  · intro row hrow
    obtain ⟨segment, hsegment, rfl⟩ := List.mem_map.mp hrow
    show '/' ∉ (scrubSegment segment).after segment
    rcases scrubSegment_cases segment with hnone | ⟨id, _, _, _, hdigits, hnew⟩
    · rw [Scrubbed.after_none hnone]
      exact mem_splitOn hsegment
    · have hid : '/' ∉ id := by
        intro hin
        have hdigit := List.all_eq_true.mp hdigits '/' hin
        cases hdigit
      have hword : '/' ∉ redacted := by decide
      rw [Scrubbed.after_some hnew]
      simp [hid, hword]

theorem retokened_scrubBotToken {path new : Text} (h : (scrubBotToken path).owned = some new) : Retokened path new := by
  have hcut := splitOn_scrubBotToken path
  rw [Scrubbed.after_some h] at hcut
  rw [Retokened, hcut, List.forall₂_map_right_iff, List.forall₂_same]
  intro segment _
  rcases scrubSegment_cases segment with hnone | ⟨id, token, hbot, _, _, hnew⟩
  · exact Or.inl (Scrubbed.after_none hnone segment)
  · exact Or.inr ⟨id, token, hbot, Scrubbed.after_some hnew segment⟩

theorem scrubBotToken_again (path : Text) : (scrubBotToken ((scrubBotToken path).after path)).owned = none := by
  unfold scrubBotToken
  rw [rejoin_owned_eq_none]
  intro row hrow
  obtain ⟨segment, hsegment, rfl⟩ := List.mem_map.mp hrow
  rw [show ((rejoin '/' ((path.splitOn '/').map fun segment => (segment, scrubSegment segment))).after path).splitOn '/' =
    (path.splitOn '/').map fun segment => (scrubSegment segment).after segment from splitOn_scrubBotToken path] at hsegment
  obtain ⟨old, _, rfl⟩ := List.mem_map.mp hsegment
  exact scrubSegment_again old

/-! ## Links -/

/-- The mark a part begins with. -/
def Part.mark : Part → Char
  | .query => '?'
  | .fragment => '#'

/-- What the `url` crate is relied on for. -/
structure UrlCrate.Lawful (U : UrlCrate) : Prop where
  parse_serialize : ∀ u, U.parse (U.serialize u) = some u
  hasLogin_dropLogin : ∀ u, U.hasLogin (U.dropLogin u) = false
  hostStr_dropLogin : ∀ u, U.hostStr (U.dropLogin u) = U.hostStr u
  path_dropLogin : ∀ u, U.path (U.dropLogin u) = U.path u
  part_dropLogin : ∀ u k, U.part k (U.dropLogin u) = U.part k u
  hasLogin_setPath : ∀ u p, U.hasLogin (U.setPath u p) = U.hasLogin u
  hostStr_setPath : ∀ u p, U.hostStr (U.setPath u p) = U.hostStr u
  /-- A path that only got its tokens replaced is set as it is. -/
  path_setPath : ∀ u p, Retokened (U.path u) p → U.path (U.setPath u p) = p
  part_setPath : ∀ u p k, U.part k (U.setPath u p) = U.part k u
  hasLogin_setPart : ∀ u k q, U.hasLogin (U.setPart k u q) = U.hasLogin u
  hostStr_setPart : ∀ u k q, U.hostStr (U.setPart k u q) = U.hostStr u
  path_setPart : ∀ u k q, U.path (U.setPart k u q) = U.path u
  /-- Only characters of the old part, and such as are never encoded, are set. -/
  part_setPart : ∀ u k old q, U.part k u = some old → (∀ c ∈ q, c ∈ old ∨ pairChar c = true) →
    U.part k (U.setPart k u q) = some q
  part_setPart_other : ∀ u k l q, k ≠ l → U.part l (U.setPart k u q) = U.part l u
  part_marked : ∀ t u k q, U.parse t = some u → U.part k u = some q → k.mark ∈ t
  /-- The value of a pair is a piece of the link, once it is decoded. -/
  value_shorter : ∀ t u k q pair name value, U.parse t = some u → U.part k u = some q → pair ∈ q.splitOn '&' →
    formPair pair = some (name, value) → value.length < t.length

section Links

variable {U : UrlCrate} {recur : Text → Option Scrubbed}

/-- What is made of a link's path. -/
def botOf (u : U.Url) : Scrubbed := if U.host u = telegram then scrubBotToken (U.path u) else {}

/-- What is made of a part that may not be there. -/
def scrubPart (recur : Text → Option Scrubbed) (names : List Text) : Option Text → Option Scrubbed
  | none => some {}
  | some q => scrubPairs recur names q

theorem scrubPart_mono {recur' : Text → Option Scrubbed} (hmore : ∀ t s, recur t = some s → recur' t = some s)
    {names : List Text} {o : Option Text} {s : Scrubbed} (h : scrubPart recur names o = some s) :
    scrubPart recur' names o = some s := by
  cases o with
  | none => exact h
  | some q => exact scrubPairs_mono hmore h

theorem Pass.took_none (p : Pass U) {s : Scrubbed} (h : s.owned = none) (set : Text → U.Url) : (p.took s set).url = p.url := by
  show (s.owned.map set).getD p.url = p.url
  rw [h]
  rfl

theorem Pass.took_some (p : Pass U) {s : Scrubbed} {new : Text} (h : s.owned = some new) (set : Text → U.Url) :
    (p.took s set).url = set new := by
  show (s.owned.map set).getD p.url = set new
  rw [h]
  rfl

/-- What a setter leaves alone. -/
theorem Pass.took_frame {α : Type} (look : U.Url → α) (p : Pass U) (s : Scrubbed) {set : Text → U.Url}
    (hset : ∀ t, look (set t) = look p.url) : look (p.took s set).url = look p.url := by
  cases h : s.owned with
  | none => rw [p.took_none h]
  | some new => rw [p.took_some h, hset]

theorem Pass.took_empty (p : Pass U) (set : Text → U.Url) : p.took {} set = p := by
  show (⟨p.url, p.changed || false, p.marked || false⟩ : Pass U) = p
  rw [Bool.or_false, Bool.or_false]

theorem Pass.bot_eq (p : Pass U) : p.bot = p.took (botOf p.url) (U.setPath p.url) := by
  unfold Pass.bot botOf
  split
  · rfl
  · rw [p.took_empty]

theorem Pass.pairs_eq_some {names : List Text} {k : Part} {p p' : Pass U} :
    p.pairs recur names k = some p' ↔
      ∃ s, scrubPart recur names (U.part k p.url) = some s ∧ p.took s (U.setPart k p.url) = p' := by
  unfold Pass.pairs
  cases U.part k p.url with
  | none =>
    constructor
    · intro h
      exact ⟨{}, rfl, by rw [p.took_empty]; exact Option.some.inj h⟩
    · rintro ⟨s, hs, rfl⟩
      cases hs
      rw [p.took_empty]
  | some q => exact Option.map_eq_some_iff

/-- What a link is after its secrets were taken out. -/
structure Became (recur : Text → Option Scrubbed) (u : U.Url) (p : Pass U) : Prop where
  hasLogin : U.hasLogin p.url = false
  hostStr : U.hostStr p.url = U.hostStr u
  path : U.path p.url = (botOf u).after (U.path u)
  part : ∀ k, ∃ s, scrubPart recur (scopedOn (U.host u)) (U.part k u) = some s ∧
    U.part k p.url = (U.part k u).map s.after
  marked : p.marked = true ↔ (botOf u).marked = true ∨
    ∃ k s, scrubPart recur (scopedOn (U.host u)) (U.part k u) = some s ∧ s.marked = true
  changed : p.changed = false ↔ U.hasLogin u = false ∧ (botOf u).owned = none ∧
    ∀ k s, scrubPart recur (scopedOn (U.host u)) (U.part k u) = some s → s.owned = none
  same : p.changed = false → p.url = u

theorem Pass.login_spec (hU : U.Lawful) (u : U.Url) :
    U.hasLogin (Pass.login u).url = false ∧ U.hostStr (Pass.login u).url = U.hostStr u ∧
      U.path (Pass.login u).url = U.path u ∧ (∀ k, U.part k (Pass.login u).url = U.part k u) ∧
      (Pass.login u).marked = false ∧ (Pass.login u).changed = U.hasLogin u ∧
      (U.hasLogin u = false → (Pass.login u).url = u) := by
  cases hlogin : U.hasLogin u with
  | true =>
    have h : Pass.login u = ⟨U.dropLogin u, true, false⟩ := if_pos hlogin
    rw [h]
    exact ⟨hU.hasLogin_dropLogin u, hU.hostStr_dropLogin u, hU.path_dropLogin u, hU.part_dropLogin u, rfl, rfl,
      fun h => (by cases h)⟩
  | false =>
    have h : Pass.login u = ⟨u, false, false⟩ := if_neg (by rw [hlogin]; exact Bool.false_ne_true)
    rw [h]
    exact ⟨hlogin, rfl, rfl, fun _ => rfl, rfl, rfl, fun _ => rfl⟩

/-- A part is set to what it was scrubbed to. -/
theorem part_took (hU : U.Lawful) {names : List Text} {k : Part} {p : Pass U} {s : Scrubbed}
    (hs : scrubPart recur names (U.part k p.url) = some s) :
    U.part k (p.took s (U.setPart k p.url)).url = (U.part k p.url).map s.after := by
  cases howned : s.owned with
  | none =>
    rw [p.took_none howned]
    cases U.part k p.url with
    | none => rfl
    | some q => rw [Option.map_some, Scrubbed.after_none howned]
  | some new =>
    rw [p.took_some howned]
    cases hq : U.part k p.url with
    | none =>
      rw [hq] at hs
      cases hs
      cases howned
    | some q =>
      rw [hq] at hs
      rw [Option.map_some, Scrubbed.after_some howned]
      exact hU.part_setPart p.url k q new hq fun c hc => mem_scrubPairs hs howned hc

theorem path_took (hU : U.Lawful) {p : Pass U} {u : U.Url} (hbot : botOf p.url = botOf u) :
    U.path (p.took (botOf u) (U.setPath p.url)).url = (botOf u).after (U.path p.url) := by
  rw [← hbot]
  cases howned : (botOf p.url).owned with
  | none => rw [p.took_none howned, Scrubbed.after_none howned]
  | some new =>
    rw [p.took_some howned, Scrubbed.after_some howned]
    apply hU.path_setPath
    unfold botOf at howned
    split at howned
    · exact retokened_scrubBotToken howned
    · cases howned

theorem scrubUrl_spec (hU : U.Lawful) {u : U.Url} {p : Pass U} (h : scrubUrl recur u = some p) : Became recur u p := by
  obtain ⟨hlogin, hhost, hpath, hpart, hmarked, hchanged, hsame⟩ := Pass.login_spec hU u
  unfold scrubUrl at h
  simp only [Option.bind_eq_bind, Option.bind_eq_some_iff, Pass.pairs_eq_some, Pass.bot_eq] at h
  have hnames : scopedOn (U.host (Pass.login u).url) = scopedOn (U.host u) := by
    rw [UrlCrate.host, UrlCrate.host, hhost]
  have hbot : botOf (Pass.login u).url = botOf u := by
    rw [botOf, botOf, UrlCrate.host, UrlCrate.host, hhost, hpath]
  rw [hnames, hbot] at h
  generalize Pass.login u = p0 at *
  obtain ⟨_, ⟨sq, hsq, rfl⟩, sf, hsf, rfl⟩ := h
  generalize hp1 : p0.took (botOf u) (U.setPath p0.url) = p1 at *
  have hpart1 : ∀ k, U.part k p1.url = U.part k u := by
    intro k
    rw [← hp1, Pass.took_frame (U.part k) p0 _ fun t => hU.part_setPath p0.url t k, hpart k]
  have hpath1 : U.path p1.url = (botOf u).after (U.path u) := by
    rw [← hp1, ← hpath]
    exact path_took hU hbot
  have hlogin1 : U.hasLogin p1.url = false := by
    rw [← hp1, Pass.took_frame U.hasLogin p0 _ (hU.hasLogin_setPath p0.url), hlogin]
  have hhost1 : U.hostStr p1.url = U.hostStr u := by
    rw [← hp1, Pass.took_frame U.hostStr p0 _ (hU.hostStr_setPath p0.url), hhost]
  generalize hp2 : p1.took sq (U.setPart .query p1.url) = p2 at *
  have hquery2 : U.part .query p2.url = (U.part .query p1.url).map sq.after := hp2 ▸ part_took hU hsq
  have hfrag2 : U.part .fragment p2.url = U.part .fragment u := by
    rw [← hp2, Pass.took_frame (U.part .fragment) p1 _ fun t => hU.part_setPart_other p1.url .query .fragment t (by decide),
      hpart1]
  have hfrag3 := part_took hU hsf
  rw [hfrag2] at hfrag3 hsf
  rw [hpart1] at hquery2 hsq
  -- each part was scrubbed one way only
  have hboth : ∀ (P : Scrubbed → Prop), (∀ k s, scrubPart recur (scopedOn (U.host u)) (U.part k u) = some s → P s) ↔
      P sq ∧ P sf := by
    intro P
    constructor
    · intro hall
      exact ⟨hall .query sq hsq, hall .fragment sf hsf⟩
    · rintro ⟨hq, hf⟩ k s hs
      cases k with
      | query => exact Option.some.inj (hsq.symm.trans hs) ▸ hq
      | fragment => exact Option.some.inj (hsf.symm.trans hs) ▸ hf
  refine ⟨?_, ?_, ?_, ?_, ?_, ?_, ?_⟩
  · rw [Pass.took_frame U.hasLogin p2 _ (hU.hasLogin_setPart p2.url .fragment), ← hp2,
      Pass.took_frame U.hasLogin p1 _ (hU.hasLogin_setPart p1.url .query), hlogin1]
  · rw [Pass.took_frame U.hostStr p2 _ (hU.hostStr_setPart p2.url .fragment), ← hp2,
      Pass.took_frame U.hostStr p1 _ (hU.hostStr_setPart p1.url .query), hhost1]
  · rw [Pass.took_frame U.path p2 _ (hU.path_setPart p2.url .fragment), ← hp2,
      Pass.took_frame U.path p1 _ (hU.path_setPart p1.url .query), hpath1]
  · intro k
    cases k with
    | query =>
      refine ⟨sq, hsq, ?_⟩
      rw [Pass.took_frame (U.part .query) p2 _ fun t => hU.part_setPart_other p2.url .fragment .query t (by decide),
        hquery2]
    | fragment => exact ⟨sf, hsf, hfrag3⟩
  · have hsplit := hboth fun s => ¬ s.marked = true
    have hnot : (¬ ∃ k s, scrubPart recur (scopedOn (U.host u)) (U.part k u) = some s ∧ s.marked = true) ↔
        ¬ sq.marked = true ∧ ¬ sf.marked = true := by
      rw [← hsplit]
      exact ⟨fun h k s hs hm => h ⟨k, s, hs, hm⟩, fun h ⟨k, s, hs, hm⟩ => h k s hs hm⟩
    have hex : (∃ k s, scrubPart recur (scopedOn (U.host u)) (U.part k u) = some s ∧ s.marked = true) ↔
        sq.marked = true ∨ sf.marked = true := by
      rw [← not_iff_not, hnot, not_or]
    rw [hex]
    show (p2.marked || sf.marked) = true ↔ _
    rw [← hp2]
    show (p1.marked || sq.marked || sf.marked) = true ↔ _
    rw [← hp1]
    show (p0.marked || (botOf u).marked || sq.marked || sf.marked) = true ↔ _
    rw [hmarked, Bool.false_or, Bool.or_eq_true, Bool.or_eq_true, or_assoc]
  · rw [hboth fun s => s.owned = none]
    show (p2.changed || sf.owned.isSome) = false ↔ _
    rw [← hp2]
    show (p1.changed || sq.owned.isSome || sf.owned.isSome) = false ↔ _
    rw [← hp1]
    show (p0.changed || (botOf u).owned.isSome || sq.owned.isSome || sf.owned.isSome) = false ↔ _
    rw [hchanged]
    simp only [Bool.or_eq_false_iff, Option.isSome_eq_false_iff, Option.isNone_iff_eq_none, and_assoc]
  · intro hcalm
    have hcalm' : (p0.changed || (botOf u).owned.isSome || sq.owned.isSome || sf.owned.isSome) = false := by
      rw [← hcalm, ← hp2, ← hp1]
      rfl
    simp only [Bool.or_eq_false_iff, Option.isSome_eq_false_iff, Option.isNone_iff_eq_none] at hcalm'
    rw [Pass.took_none p2 hcalm'.2, ← hp2, Pass.took_none p1 hcalm'.1.2, ← hp1, Pass.took_none p0 hcalm'.1.1.2]
    exact hsame (hchanged ▸ hcalm'.1.1.1)

theorem scrubUrl_isSome (hU : U.Lawful) {u : U.Url}
    (h : ∀ k, ∃ s, scrubPart recur (scopedOn (U.host u)) (U.part k u) = some s) : ∃ p : Pass U, scrubUrl recur u = some p := by
  obtain ⟨_, hhost, hpath, hpart, _⟩ := Pass.login_spec hU u
  have hnames : scopedOn (U.host (Pass.login u).url) = scopedOn (U.host u) := by
    rw [UrlCrate.host, UrlCrate.host, hhost]
  obtain ⟨sq, hsq⟩ := h .query
  obtain ⟨sf, hsf⟩ := h .fragment
  have hpart1 : ∀ k, U.part k (Pass.login u).bot.url = U.part k u := by
    intro k
    rw [Pass.bot_eq, Pass.took_frame (U.part k) _ _ fun t => hU.part_setPath _ t k, hpart k]
  have hfirst : (Pass.login u).bot.pairs recur (scopedOn (U.host u)) .query =
      some ((Pass.login u).bot.took sq (U.setPart .query (Pass.login u).bot.url)) :=
    Pass.pairs_eq_some.mpr ⟨sq, by rw [hpart1, hsq], rfl⟩
  have hsecond := Pass.took_frame (U.part .fragment) (Pass.login u).bot sq fun t =>
    hU.part_setPart_other (Pass.login u).bot.url .query .fragment t (by decide)
  have hthird := (@Pass.pairs_eq_some U recur (scopedOn (U.host u)) .fragment
    ((Pass.login u).bot.took sq (U.setPart .query (Pass.login u).bot.url)) _).mpr
    ⟨sf, by rw [hsecond, hpart1, hsf], rfl⟩
  unfold scrubUrl
  rw [hnames]
  simp only [Option.bind_eq_bind, hfirst, Option.bind_some]
  exact ⟨_, hthird⟩

theorem botOf_again {u v : U.Url} (hhost : U.hostStr v = U.hostStr u) (hpath : U.path v = (botOf u).after (U.path u)) :
    (botOf v).owned = none := by
  have hsame : U.host v = U.host u := by
    rw [UrlCrate.host, UrlCrate.host, hhost]
  unfold botOf at hpath ⊢
  rw [hsame]
  split at hpath
  · rename_i htelegram
    rw [if_pos htelegram, hpath]
    exact scrubBotToken_again (U.path u)
  · rename_i hother
    rw [if_neg hother]

theorem scrubPart_again (hcalm : Calms recur) {names : List Text} {o : Option Text} {s : Scrubbed}
    (h : scrubPart recur names o = some s) :
    ∃ m, scrubPart recur names (o.map s.after) = some { owned := none, marked := m } := by
  cases o with
  | none => exact ⟨false, rfl⟩
  | some q => exact scrubPairs_again hcalm h

/-- A scrubbed link is left as it is. -/
theorem scrubUrl_again (hU : U.Lawful) (hcalm : Calms recur) {u : U.Url} {p : Pass U} (h : scrubUrl recur u = some p) :
    ∃ p' : Pass U, scrubUrl recur p.url = some p' ∧ p'.changed = false := by
  have hspec := scrubUrl_spec hU h
  have hnames : scopedOn (U.host p.url) = scopedOn (U.host u) := by
    rw [UrlCrate.host, UrlCrate.host, hspec.hostStr]
  have hparts : ∀ k, ∃ m, scrubPart recur (scopedOn (U.host p.url)) (U.part k p.url) =
      some { owned := none, marked := m } := by
    intro k
    obtain ⟨s, hs, hpart⟩ := hspec.part k
    rw [hnames, hpart]
    exact scrubPart_again hcalm hs
  obtain ⟨p', hp'⟩ := scrubUrl_isSome hU fun k =>
    let ⟨m, hm⟩ := hparts k
    ⟨{ owned := none, marked := m }, hm⟩
  refine ⟨p', hp', (scrubUrl_spec hU hp').changed.mpr ⟨hspec.hasLogin, botOf_again hspec.hostStr hspec.path, ?_⟩⟩
  intro k s hs
  obtain ⟨m, hm⟩ := hparts k
  rw [hs, Option.some_inj] at hm
  rw [hm]

/-! ### A run of `scrub` -/

/-- What a look at `t` found. -/
inductive Looked (U : UrlCrate) (recur : Text → Option Scrubbed) (t : Text) : Scrubbed → Prop
  | unmarked : worthALook t = false → Looked U recur t {}
  | noLink : U.parse t = none → Looked U recur t {}
  | link (u : U.Url) (p : Pass U) : worthALook t = true → U.parse t = some u → scrubUrl recur u = some p →
      Looked U recur t { owned := if p.changed then some (U.serialize p.url) else none, marked := p.marked }

theorem scrub_looked {fuel : Nat} {t : Text} {s : Scrubbed} (h : scrub U (fuel + 1) t = some s) :
    Looked U (scrub U fuel) t s := by
  unfold scrub at h
  split at h
  · rename_i hworth
    cases h
    exact Looked.unmarked (by simpa using hworth)
  · rename_i hworth
    split at h
    · rename_i hparse
      cases h
      exact Looked.noLink hparse
    · rename_i u hparse
      obtain ⟨p, hp, rfl⟩ := Option.map_eq_some_iff.mp h
      rw [Bool.not_eq_true', Bool.not_eq_false] at hworth
      exact Looked.link u p hworth hparse hp

theorem scrub_of_parse {fuel : Nat} {t : Text} {u : U.Url} {p : Pass U} (hparse : U.parse t = some u)
    (hp : scrubUrl (scrub U fuel) u = some p) (hworth : worthALook t = true) :
    scrub U (fuel + 1) t = some { owned := if p.changed then some (U.serialize p.url) else none, marked := p.marked } := by
  rw [scrub, hworth, hparse]
  show (scrubUrl (scrub U fuel) u).map _ = _
  rw [hp]
  rfl

theorem scrub_unworthy {fuel : Nat} {t : Text} (hworth : worthALook t = false) : scrub U (fuel + 1) t = some {} := by
  rw [scrub, hworth]
  rfl

theorem scrub_calms (hU : U.Lawful) (fuel : Nat) : Calms (scrub U fuel) := by
  induction fuel with
  | zero =>
    intro t s h
    cases h
  | succ fuel ih =>
    intro t s h
    cases howned : s.owned with
    | none =>
      rw [Scrubbed.after_none howned]
      exact ⟨s.marked, by rw [h, ← howned]⟩
    | some new =>
      rw [Scrubbed.after_some howned]
      cases scrub_looked h with
      | unmarked => cases howned
      | noLink => cases howned
      | link u p hworth hparse hp =>
        dsimp only at howned
        split at howned
        · cases howned
          obtain ⟨p', hp', hcalm⟩ := scrubUrl_again hU ih hp
          cases hagain : worthALook (U.serialize p.url) with
          | false => exact ⟨false, scrub_unworthy hagain⟩
          | true =>
            refine ⟨p'.marked, ?_⟩
            rw [scrub_of_parse (hU.parse_serialize p.url) hp' hagain, hcalm]
            rfl
        · cases howned

theorem scrub_mono {fuel more : Nat} (hle : fuel ≤ more) {t : Text} {s : Scrubbed} (h : scrub U fuel t = some s) :
    scrub U more t = some s := by
  induction fuel generalizing more t s with
  | zero => cases h
  | succ fuel ih =>
    obtain ⟨more, rfl⟩ := Nat.exists_eq_add_of_le' (Nat.le_trans (Nat.le_add_left 1 fuel) hle)
    cases scrub_looked h with
    | unmarked hworth => exact scrub_unworthy hworth
    | noLink hparse =>
      unfold scrub
      rw [hparse]
      split <;> rfl
    | link u p hworth hparse hp =>
      have hsame : scrubUrl (scrub U more) u = some p := by
        have hmore : ∀ t s, scrub U fuel t = some s → scrub U more t = some s := by
          intro t s h
          exact ih (Nat.le_of_succ_le_succ hle) h
        unfold scrubUrl at hp ⊢
        simp only [Option.bind_eq_bind, Option.bind_eq_some_iff, Pass.pairs_eq_some] at hp ⊢
        obtain ⟨_, ⟨sq, hsq, rfl⟩, sf, hsf, rfl⟩ := hp
        exact ⟨_, ⟨sq, scrubPart_mono hmore hsq, rfl⟩, sf, scrubPart_mono hmore hsf, rfl⟩
      rw [scrub_of_parse hparse hsame hworth]

/-- A link shorter than the fuel is answered. -/
theorem scrub_isSome (hU : U.Lawful) {fuel : Nat} {t : Text} (h : t.length < fuel) : ∃ s, scrub U fuel t = some s := by
  induction fuel generalizing t with
  | zero => exact absurd h (Nat.not_lt_zero _)
  | succ fuel ih =>
    cases hworth : worthALook t with
    | false => exact ⟨{}, scrub_unworthy hworth⟩
    | true =>
      cases hparse : U.parse t with
      | none =>
        unfold scrub
        rw [hparse, hworth]
        exact ⟨{}, rfl⟩
      | some u =>
        obtain ⟨p, hp⟩ := @scrubUrl_isSome U (scrub U fuel) hU u fun k => by
          cases hq : U.part k u with
          | none => exact ⟨{}, rfl⟩
          | some q =>
            apply scrubPairs_isSome
            intro pair hpair
            apply scrubPair_isSome
            intro name value hform
            have hshort := hU.value_shorter t u k q pair name value hparse hq hpair hform
            exact ih (by omega)
        exact ⟨_, scrub_of_parse hparse hp hworth⟩

end Links

end Hyperfetch.History
