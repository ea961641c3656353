import Hyperfetch.History.Passes
import Mathlib.Algebra.Order.BigOperators.Group.List
import Mathlib.Algebra.Order.Group.Nat

/-!
# No secret survives

After the pairs of a query or fragment were scrubbed, no secret pair holds
anything but `REDACTED`, at any depth of links in values (`Clean`); what is no
secret and carries no link is kept; scrubbing again changes nothing, and then
reports exactly whether a secret is `REDACTED` (`Holds`).

A link in a value is a value that contains `://` and that the `url` crate parses.
-/

namespace Hyperfetch.History

open Weft

variable {U : UrlCrate}

/-- The value of a pair is a link. -/
def Carries (U : UrlCrate) (pairs value : Text) (u : U.Url) : Prop :=
  ∃ pair ∈ pairs.splitOn '&', ∃ name, formPair pair = some (name, value) ∧ schemeMark <:+: value ∧ U.parse value = some u

/-- A link in a value, or in a value of a link in a value, to any depth. -/
inductive Reached (U : UrlCrate) : Text → Text → U.Url → Prop
  | carried {pairs value : Text} {u : U.Url} : Carries U pairs value u → Reached U pairs value u
  | inside {pairs outer q value : Text} {v u : U.Url} {k : Part} : Carries U pairs outer v → U.part k v = some q →
      Reached U q value u → Reached U pairs value u

/-- No secret pair holds anything but `REDACTED`. -/
def Settled (names : List Text) (pairs : Text) : Prop :=
  ∀ pair ∈ pairs.splitOn '&', ∀ name value, formPair pair = some (name, value) → secretParam name names = true →
    value = redacted ∨ value = []

/-- The same at every level. -/
def Clean (U : UrlCrate) (names : List Text) (pairs : Text) : Prop :=
  Settled names pairs ∧
    ∀ value u, Reached U pairs value u → ∀ k q, U.part k u = some q → Settled (scopedOn (U.host u)) q

/-- A secret pair is `REDACTED`. -/
def Marks (names : List Text) (pairs : Text) : Prop :=
  ∃ pair ∈ pairs.splitOn '&', ∃ name, formPair pair = some (name, redacted) ∧ secretParam name names = true

/-- A link to the Telegram Bot API, which is looked at, has a token that is `REDACTED`. -/
def BotMarked (U : UrlCrate) (t : Text) (u : U.Url) : Prop :=
  worthALook t = true ∧ U.host u = telegram ∧
    ∃ segment ∈ (U.path u).splitOn '/', ∃ id, botToken segment = some (id, redacted)

/-- A secret is `REDACTED` at some level. -/
def Holds (U : UrlCrate) (names : List Text) (pairs : Text) : Prop :=
  Marks names pairs ∨ ∃ value u, Reached U pairs value u ∧
    (BotMarked U value u ∨ ∃ k q, U.part k u = some q ∧ Marks (scopedOn (U.host u)) q)

/-- A secret of the link `t`, or of one in its values, is `REDACTED`. -/
def HoldsLink (U : UrlCrate) (t : Text) : Prop :=
  ∃ u, U.parse t = some u ∧ (BotMarked U t u ∨ ∃ k q, U.part k u = some q ∧ Holds U (scopedOn (U.host u)) q)

/-! ## Level by level -/

theorem clean_iff {names : List Text} {pairs : Text} :
    Clean U names pairs ↔ Settled names pairs ∧
      ∀ value u, Carries U pairs value u → ∀ k q, U.part k u = some q → Clean U (scopedOn (U.host u)) q := by
  constructor
  · rintro ⟨hhere, hall⟩
    refine ⟨hhere, ?_⟩
    intro value u hcarries k q hq
    refine ⟨hall value u (Reached.carried hcarries) k q hq, ?_⟩
    intro inner w hreached
    exact hall inner w (Reached.inside hcarries hq hreached)
  · rintro ⟨hhere, hall⟩
    refine ⟨hhere, ?_⟩
    intro value u hreached k q hq
    cases hreached with
    | carried hcarries => exact (hall value u hcarries k q hq).1
    | inside hcarries hq' hreached => exact (hall _ _ hcarries _ _ hq').2 value u hreached k q hq

theorem holds_iff {names : List Text} {pairs : Text} :
    Holds U names pairs ↔ Marks names pairs ∨ ∃ value u, Carries U pairs value u ∧
      (BotMarked U value u ∨ ∃ k q, U.part k u = some q ∧ Holds U (scopedOn (U.host u)) q) := by
  constructor
  · rintro (hhere | ⟨value, u, hreached, hfound⟩)
    · exact Or.inl hhere
    · right
      cases hreached with
      | carried hcarries =>
        refine ⟨value, u, hcarries, hfound.imp id ?_⟩
        rintro ⟨k, q, hq, hmarks⟩
        exact ⟨k, q, hq, Or.inl hmarks⟩
      | inside hcarries hq hreached => exact ⟨_, _, hcarries, Or.inr ⟨_, _, hq, Or.inr ⟨value, u, hreached, hfound⟩⟩⟩
  · rintro (hhere | ⟨value, u, hcarries, hbot | ⟨k, q, hq, hholds⟩⟩)
    · exact Or.inl hhere
    · exact Or.inr ⟨value, u, Reached.carried hcarries, Or.inl hbot⟩
    · rcases hholds with hmarks | ⟨inner, w, hreached, hfound⟩
      · exact Or.inr ⟨value, u, Reached.carried hcarries, Or.inr ⟨k, q, hq, hmarks⟩⟩
      · exact Or.inr ⟨inner, w, Reached.inside hcarries hq hreached, hfound⟩

theorem holds_iff_link {names : List Text} {pairs : Text} :
    Holds U names pairs ↔ Marks names pairs ∨ ∃ pair ∈ pairs.splitOn '&', ∃ name value,
      formPair pair = some (name, value) ∧ schemeMark <:+: value ∧ HoldsLink U value := by
  rw [holds_iff]
  apply or_congr Iff.rfl
  constructor
  · rintro ⟨value, u, ⟨pair, hpair, name, hform, hmark, hparse⟩, hfound⟩
    exact ⟨pair, hpair, name, value, hform, hmark, u, hparse, hfound⟩
  · rintro ⟨pair, hpair, name, value, hform, hmark, u, hparse, hfound⟩
    exact ⟨value, u, ⟨pair, hpair, name, hform, hmark, hparse⟩, hfound⟩

theorem no_mark_in_redacted : ¬ schemeMark <:+: redacted := by decide

/-! ## What is left as it is, is clean -/

/-- A link `recur` leaves as it is is clean, and it is reported whether a secret
of it is `REDACTED`. -/
def Honest (U : UrlCrate) (recur : Text → Option Scrubbed) : Prop :=
  ∀ t m, recur t = some { owned := none, marked := m } →
    (∀ u, U.parse t = some u → ∀ k q, U.part k u = some q → Clean U (scopedOn (U.host u)) q) ∧
      (m = true ↔ HoldsLink U t)

section Unchanged

variable {recur : Text → Option Scrubbed} {names : List Text}

theorem Honest.carried (h : Honest U recur) {value : Text} {inner : Scrubbed} (hinner : recur value = some inner)
    (hnone : inner.owned = none) :
    (∀ u, U.parse value = some u → ∀ k q, U.part k u = some q → Clean U (scopedOn (U.host u)) q) ∧
      (inner.marked = true ↔ HoldsLink U value) :=
  h value inner.marked (by rw [hinner, ← hnone])

/-- What a pair that stays says. -/
theorem pair_stays (hhonest : Honest U recur) {pair : Text} {s : Scrubbed} (h : scrubPair recur names pair = some s)
    (hnone : s.owned = none) {name value : Text} (hform : formPair pair = some (name, value)) :
    (secretParam name names = true → value = redacted ∨ value = []) ∧
      (schemeMark <:+: value → ∀ u, U.parse value = some u → ∀ k q, U.part k u = some q →
        Clean U (scopedOn (U.host u)) q) ∧
      (s.marked = true ↔ (secretParam name names = true ∧ value = redacted) ∨
        (schemeMark <:+: value ∧ HoldsLink U value)) := by
  cases scrubPair_outcome h with
  | empty hempty =>
    rw [hform] at hempty
    cases hempty
  | already _ _ hform' hsecret hvalue =>
    rw [hform] at hform'
    cases hform'
    subst hvalue
    exact ⟨fun _ => Or.inl rfl, fun hmark => absurd hmark no_mark_in_redacted,
      fun _ => Or.inl ⟨hsecret, rfl⟩, fun _ => rfl⟩
  | hidden => cases hnone
  | carried _ _ inner hform' hsecret hmark hinner =>
    rw [hform] at hform'
    cases hform'
    obtain ⟨hclean, hmarked⟩ := hhonest.carried hinner (Option.map_eq_none_iff.mp hnone)
    refine ⟨fun h => Or.inr (hsecret h), fun _ => hclean, ?_⟩
    show inner.marked = true ↔ _
    rw [hmarked]
    constructor
    · intro hholds
      exact Or.inr ⟨hmark, hholds⟩
    · rintro (⟨_, rfl⟩ | ⟨_, hholds⟩)
      · exact absurd hmark no_mark_in_redacted
      · exact hholds
  | plain _ _ hform' hsecret hmark =>
    rw [hform] at hform'
    cases hform'
    refine ⟨fun h => Or.inr (hsecret h), fun h => absurd h hmark, ?_⟩
    constructor
    · intro h
      cases h
    · rintro (⟨h, rfl⟩ | ⟨h, _⟩)
      · cases hsecret h
      · exact absurd h hmark

theorem empty_unmarked {pair : Text} {s : Scrubbed} (h : scrubPair recur names pair = some s)
    (hform : formPair pair = none) : s.marked = false := by
  cases scrubPair_outcome h with
  | empty => rfl
  | already _ _ hform' => cases hform.symm.trans hform'
  | hidden _ _ hform' => cases hform.symm.trans hform'
  | carried _ _ _ hform' => cases hform.symm.trans hform'
  | plain _ _ hform' => cases hform.symm.trans hform'

/-- Pairs that stay as they are are clean at every level. -/
theorem pairs_stay (hhonest : Honest U recur) {pairs : Text} {s : Scrubbed}
    (h : scrubPairs recur names pairs = some s) (hnone : s.owned = none) :
    Clean U names pairs ∧ (s.marked = true ↔ Holds U names pairs) := by
  obtain ⟨rows, hcut, hrows, rfl⟩ := scrubPairs_eq_some.mp h
  rw [rejoin_owned_eq_none] at hnone
  -- the row of a pair
  have hrow : ∀ pair ∈ pairs.splitOn '&', ∃ s, (pair, s) ∈ rows := by
    intro pair hpair
    rw [← hcut] at hpair
    obtain ⟨row, hin, rfl⟩ := List.mem_map.mp hpair
    exact ⟨row.2, hin⟩
  have hstays : ∀ pair ∈ pairs.splitOn '&', ∀ name value, formPair pair = some (name, value) → ∃ s, (pair, s) ∈ rows ∧ _ :=
    fun pair hpair name value hform =>
      let ⟨s, hin⟩ := hrow pair hpair
      ⟨s, hin, pair_stays hhonest (hrows (pair, s) hin) (hnone (pair, s) hin) hform⟩
  constructor
  · rw [clean_iff]
    constructor
    · intro pair hpair name value hform
      obtain ⟨s, _, hsettled, _⟩ := hstays pair hpair name value hform
      exact hsettled
    · rintro value u ⟨pair, hpair, name, hform, hmark, hparse⟩
      obtain ⟨s, _, _, hclean, _⟩ := hstays pair hpair name value hform
      exact hclean hmark u hparse
  · rw [rejoin_marked, holds_iff_link]
    constructor
    · rintro ⟨row, hin, hmarked⟩
      have hpair : row.1 ∈ pairs.splitOn '&' := by
        rw [← hcut]
        exact List.mem_map_of_mem hin
      cases hform : formPair row.1 with
      | none =>
        rw [empty_unmarked (hrows row hin) hform] at hmarked
        cases hmarked
      | some p =>
        obtain ⟨name, value⟩ := p
        rcases (pair_stays hhonest (hrows row hin) (hnone row hin) hform).2.2.mp hmarked with ⟨hsecret, rfl⟩ | ⟨hmark, hholds⟩
        · exact Or.inl ⟨row.1, hpair, name, hform, hsecret⟩
        · exact Or.inr ⟨row.1, hpair, name, value, hform, hmark, hholds⟩
    · rintro (⟨pair, hpair, name, hform, hsecret⟩ | ⟨pair, hpair, name, value, hform, hmark, hholds⟩)
      · obtain ⟨s, hin, _, _, hmarked⟩ := hstays pair hpair name redacted hform
        exact ⟨(pair, s), hin, hmarked.mpr (Or.inl ⟨hsecret, rfl⟩)⟩
      · obtain ⟨s, hin, _, _, hmarked⟩ := hstays pair hpair name value hform
        exact ⟨(pair, s), hin, hmarked.mpr (Or.inr ⟨hmark, hholds⟩)⟩

end Unchanged

theorem scrubSegment_marked {segment : Text} :
    (scrubSegment segment).marked = true ↔ ∃ id, botToken segment = some (id, redacted) := by
  unfold scrubSegment
  split
  · rename_i hnone
    constructor
    · intro h
      cases h
    · rintro ⟨id, h⟩
      rw [hnone] at h
      cases h
  · rename_i id token hbot
    split
    · rename_i htoken
      subst htoken
      exact ⟨fun _ => ⟨id, hbot⟩, fun _ => rfl⟩
    · rename_i htoken
      constructor
      · intro h
        cases h
      · rintro ⟨id', h⟩
        rw [hbot] at h
        cases h
        exact absurd rfl htoken

theorem botOf_marked {u : U.Url} :
    (botOf u).marked = true ↔
      U.host u = telegram ∧ ∃ segment ∈ (U.path u).splitOn '/', ∃ id, botToken segment = some (id, redacted) := by
  unfold botOf
  split
  · rename_i htelegram
    unfold scrubBotToken
    rw [rejoin_marked]
    constructor
    · rintro ⟨row, hrow, hmarked⟩
      obtain ⟨segment, hsegment, rfl⟩ := List.mem_map.mp hrow
      exact ⟨htelegram, segment, hsegment, scrubSegment_marked.mp hmarked⟩
    · rintro ⟨_, segment, hsegment, hbot⟩
      exact ⟨(segment, scrubSegment segment), List.mem_map_of_mem hsegment, scrubSegment_marked.mpr hbot⟩
  · rename_i hother
    constructor
    · intro h
      cases h
    · rintro ⟨htelegram, _⟩
      exact absurd htelegram hother

theorem not_worth_of_part (hU : U.Lawful) {t q : Text} {u : U.Url} {k : Part} (hworth : worthALook t = false)
    (hparse : U.parse t = some u) (hq : U.part k u = some q) : False := by
  have hmark := List.contains_iff_mem.mpr (hU.part_marked t u k q hparse hq)
  simp only [worthALook, Bool.or_eq_false_iff] at hworth
  cases k with
  | query => exact absurd (hworth.1.1.2.symm.trans hmark) Bool.false_ne_true
  | fragment => exact absurd (hworth.1.2.symm.trans hmark) Bool.false_ne_true

theorem scrub_honest (hU : U.Lawful) (fuel : Nat) : Honest U (scrub U fuel) := by
  induction fuel with
  | zero =>
    intro t m h
    cases h
  | succ fuel ih =>
    intro t m h
    generalize hs : ({ owned := none, marked := m } : Scrubbed) = s at h
    cases scrub_looked h with
    | unmarked hworth =>
      cases hs
      constructor
      · intro u hparse k q hq
        exact (not_worth_of_part hU hworth hparse hq).elim
      · constructor
        · intro h
          cases h
        · rintro ⟨u, hparse, hbot | ⟨k, q, hq, _⟩⟩
          · exact absurd (hworth.symm.trans hbot.1) Bool.false_ne_true
          · exact (not_worth_of_part hU hworth hparse hq).elim
    | noLink hparse =>
      cases hs
      constructor
      · intro u hparse'
        rw [hparse] at hparse'
        cases hparse'
      · constructor
        · intro h
          cases h
        · rintro ⟨u, hparse', _⟩
          rw [hparse] at hparse'
          cases hparse'
    | link u p hworth hparse hp =>
      obtain ⟨howned, rfl⟩ := Scrubbed.mk.inj hs
      have hcalm : p.changed = false := by
        cases hchanged : p.changed with
        | false => rfl
        | true =>
          rw [hchanged] at howned
          cases howned
      have hspec := scrubUrl_spec hU hp
      obtain ⟨_, _, hparts⟩ := hspec.changed.mp hcalm
      have hstay : ∀ k q, U.part k u = some q → ∃ s, scrubPart (scrub U fuel) (scopedOn (U.host u)) (U.part k u) = some s ∧
          Clean U (scopedOn (U.host u)) q ∧ (s.marked = true ↔ Holds U (scopedOn (U.host u)) q) := by
        intro k q hq
        obtain ⟨s, hs, _⟩ := hspec.part k
        refine ⟨s, hs, pairs_stay ih ?_ (hparts k s hs)⟩
        rw [hq] at hs
        exact hs
      constructor
      · intro v hparse' k q hq
        rw [hparse] at hparse'
        cases hparse'
        obtain ⟨_, _, hclean, _⟩ := hstay k q hq
        exact hclean
      · rw [hspec.marked, botOf_marked]
        constructor
        · rintro (hbot | ⟨k, s, hs, hmarked⟩)
          · exact ⟨u, hparse, Or.inl ⟨hworth, hbot⟩⟩
          · cases hq : U.part k u with
            | none =>
              rw [hq] at hs
              cases hs
              cases hmarked
            | some q =>
              obtain ⟨s', hs', _, hholds⟩ := hstay k q hq
              rw [hs, Option.some_inj] at hs'
              subst hs'
              exact ⟨u, hparse, Or.inr ⟨k, q, hq, hholds.mp hmarked⟩⟩
        · rintro ⟨v, hparse', hfound⟩
          rw [hparse] at hparse'
          cases hparse'
          rcases hfound with hbot | ⟨k, q, hq, hholds⟩
          · exact Or.inl hbot.2
          · obtain ⟨s, hs, _, hmarked⟩ := hstay k q hq
            exact Or.inr ⟨k, s, hs, hmarked.mpr hholds⟩

/-! ## The pairs together -/

/-- A pair that is no secret and carries no link is kept as it is written. -/
def Kept (U : UrlCrate) (names : List Text) (pair new : Text) : Prop :=
  (∀ name value, formPair pair = some (name, value) →
    secretParam name names = false ∧ ¬ (schemeMark <:+: value ∧ (U.parse value).isSome = true)) → new = pair

theorem scrub_noLink {fuel : Nat} {t : Text} {s : Scrubbed} (h : scrub U fuel t = some s) (hparse : U.parse t = none) :
    s.owned = none := by
  cases fuel with
  | zero => cases h
  | succ fuel =>
    cases scrub_looked h with
    | unmarked => rfl
    | noLink => rfl
    | link u p _ hparse' =>
      rw [hparse] at hparse'
      cases hparse'

theorem pairs_kept {fuel : Nat} {names : List Text} {pairs : Text} {s : Scrubbed}
    (h : scrubPairs (scrub U fuel) names pairs = some s) :
    List.Forall₂ (Kept U names) (pairs.splitOn '&') ((s.after pairs).splitOn '&') := by
  obtain ⟨rows, hcut, hrows, rfl⟩ := scrubPairs_eq_some.mp h
  rw [splitOn_scrubPairs hcut hrows, ← hcut, List.forall₂_map_left_iff, List.forall₂_map_right_iff, List.forall₂_same]
  intro row hrow hplain
  apply Scrubbed.after_none
  cases hnew : row.2.owned with
  | none => rfl
  | some new =>
    have hout := scrubPair_outcome (hrows row hrow)
    generalize row.2 = s at hout hnew
    cases hout with
    | empty => cases hnew
    | already => cases hnew
    | plain => cases hnew
    | hidden name value hform hsecret =>
      rw [(hplain name value hform).1] at hsecret
      cases hsecret
    | carried name value inner hform hsecret hmark hinner =>
      have hnone : U.parse value = none :=
        Option.not_isSome_iff_eq_none.mp fun hsome => (hplain name value hform).2 ⟨hmark, hsome⟩
      rw [scrub_noLink hinner hnone] at hnew
      cases hnew

/-- Fuel for the longest value is enough. -/
theorem scrubPairs_enough (hU : U.Lawful) (names : List Text) (pairs : Text) :
    ∃ enough s, ∀ fuel, enough ≤ fuel → scrubPairs (scrub U fuel) names pairs = some s := by
  let size : Text → Nat := fun pair => ((formPair pair).map fun p => p.2.length).getD 0
  have hsome : ∃ s, scrubPairs (scrub U (((pairs.splitOn '&').map size).sum + 1)) names pairs = some s := by
    apply scrubPairs_isSome
    intro pair hpair
    apply scrubPair_isSome
    intro name value hform
    have hsize : size pair = value.length := by
      show ((formPair pair).map fun p => p.2.length).getD 0 = value.length
      rw [hform]
      rfl
    have hle : size pair ≤ ((pairs.splitOn '&').map size).sum := 
      List.single_le_sum (fun x _ => Nat.zero_le x) _ (List.mem_map_of_mem hpair)
    exact scrub_isSome hU (by omega)
  obtain ⟨s, hs⟩ := hsome
  refine ⟨((pairs.splitOn '&').map size).sum + 1, s, ?_⟩
  intro fuel hfuel
  exact scrubPairs_mono (fun t s h => scrub_mono hfuel h) hs

/-- **No secret survives.** After the pairs were scrubbed no secret pair holds
anything but `REDACTED`, at any depth; every pair that is no secret and carries no
link is as it was, in its place; scrubbing again changes nothing, and then reports
exactly whether a secret is `REDACTED`. A link is redacted in the same way. -/
theorem no_secret_survives (hU : U.Lawful) (names : List Text) (pairs : Text) :
    (∃ enough out again,
      (∀ fuel, enough ≤ fuel → scrubPairs (scrub U fuel) names pairs = some out ∧
        scrubPairs (scrub U fuel) names (out.after pairs) = some again) ∧
      Clean U names (out.after pairs) ∧
      List.Forall₂ (Kept U names) (pairs.splitOn '&') ((out.after pairs).splitOn '&') ∧
      again.after (out.after pairs) = out.after pairs ∧
      (again.marked = true ↔ Holds U names (out.after pairs))) ∧
    ∀ link, ∃ enough saved marked,
      (∀ fuel, enough ≤ fuel → redactUrl U fuel link = some saved ∧ redactUrl U fuel saved = some saved ∧
        isRedacted U fuel saved = some marked) ∧
      (∀ u, U.parse saved = some u → ∀ k q, U.part k u = some q → Clean U (scopedOn (U.host u)) q) ∧
      (marked = true ↔ HoldsLink U saved) := by
  constructor
  · obtain ⟨enough, out, hout⟩ := scrubPairs_enough hU names pairs
    have hfirst := hout enough (Nat.le_refl _)
    obtain ⟨m, hagain⟩ := scrubPairs_again (scrub_calms hU enough) hfirst
    obtain ⟨hclean, hmarked⟩ := pairs_stay (scrub_honest hU enough) hagain rfl
    refine ⟨enough, out, { owned := none, marked := m }, ?_, hclean, pairs_kept hfirst, rfl, hmarked⟩
    intro fuel hfuel
    exact ⟨hout fuel hfuel, scrubPairs_mono (fun t s h => scrub_mono hfuel h) hagain⟩
  · intro link
    obtain ⟨s, hs⟩ := scrub_isSome hU (Nat.lt_succ_self link.length)
    obtain ⟨m, hagain⟩ := scrub_calms hU _ link s hs
    obtain ⟨hclean, hmarked⟩ := scrub_honest hU _ (s.after link) m hagain
    refine ⟨link.length.succ, s.after link, m, ?_, hclean, hmarked⟩
    intro fuel hfuel
    have hagain' := scrub_mono hfuel hagain
    refine ⟨?_, ?_, ?_⟩
    · rw [redactUrl, scrub_mono hfuel hs]
      rfl
    · rw [redactUrl, hagain']
      rfl
    · rw [isRedacted, hagain']
      rfl

/-! ## A crate that knows one site -/

theorem pairChar_lt {c : Char} (h : pairChar c = true) : c.toNat < 128 := by
  unfold pairChar Percent.safe at h
  simp only [Bool.or_eq_true, Bool.and_eq_true, beq_iff_eq, decide_eq_true_eq] at h
  rcases h with (rfl | rfl) | ((rfl | rfl) | h)
  · decide
  · decide
  · decide
  · decide
  · exact h.1

/-- A pair's value is no longer than the pair, if it is ASCII. -/
theorem length_value_le {pair name value : Text} (hascii : ∀ c ∈ pair, c.toNat < 128)
    (h : formPair pair = some (name, value)) : value.length ≤ pair.length := by
  unfold formPair at h
  split at h
  · cases h
  · cases hcut : splitOnce '=' pair with
    | none =>
      rw [hcut] at h
      cases h
      exact Nat.zero_le _
    | some row =>
      rw [hcut] at h
      cases h
      have heq := (splitOnce_eq_some.mp hcut).1
      have hrow : ∀ c ∈ row.2, c.toNat < 128 := by
        intro c hc
        apply hascii
        rw [heq]
        exact List.mem_append_right _ (List.mem_cons_of_mem _ hc)
      have hdecode := Percent.length_decode_le hrow
      rw [heq, List.length_append, List.length_cons]
      omega

/-- The query of a link to the site, if it has one. -/
def siteQuery : Text → Option Text
  | 'h' :: 't' :: 't' :: 'p' :: 's' :: ':' :: '/' :: '/' :: 'h' :: '/' :: '?' :: q => some q
  | 'h' :: 't' :: 't' :: 'p' :: 's' :: ':' :: 'h' :: '?' :: q => some q
  | _ => none

theorem siteQuery_eq_some {t q : Text} (h : siteQuery t = some q) : '?' ∈ t ∧ q.length < t.length := by
  unfold siteQuery at h
  split at h
  · cases h
    exact ⟨by simp, by simp only [List.length_cons]; omega⟩
  · cases h
    exact ⟨by simp, by simp only [List.length_cons]; omega⟩
  · cases h

section

variable (ok : Char → Bool)

/-- A query of such characters only. -/
abbrev QueryOf : Type := { q : Text // q.all ok = true }

def queryOf (q : Text) : Option (QueryOf ok) := if h : q.all ok = true then some ⟨q, h⟩ else none

/-- Links to one site whose queries are of such characters. -/
def siteCrateOf : UrlCrate where
  Url := QueryOf ok
  parse t := (siteQuery t).bind (queryOf ok)
  serialize u := "https://h/?".toList ++ u.1
  hasLogin _ := false
  dropLogin u := u
  hostStr _ := some ['h']
  path _ := ['/']
  setPath u _ := u
  part
    | .query, u => some u.1
    | .fragment, _ => none
  setPart
    | .query, u, q => (queryOf ok q).getD u
    | .fragment, u, _ => u

variable {ok}

theorem queryOf_eq_some {q : Text} {u : QueryOf ok} (h : queryOf ok q = some u) : u.1 = q := by
  unfold queryOf at h
  split at h
  · cases h
    rfl
  · cases h

theorem siteCrateOf_lawful (hpair : ∀ c, pairChar c = true → ok c = true) (hascii : ∀ c, ok c = true → c.toNat < 128) :
    (siteCrateOf ok).Lawful where
  parse_serialize u := by
    show queryOf ok u.1 = some u
    exact dif_pos u.2
  hasLogin_dropLogin _ := rfl
  hostStr_dropLogin _ := rfl
  path_dropLogin _ := rfl
  part_dropLogin _ _ := rfl
  hasLogin_setPath _ _ := rfl
  hostStr_setPath _ _ := rfl
  path_setPath _ p h := by
    -- the site's path has no token to replace
    have hcut : ([[], []] : List Text) = p.splitOn '/' := by
      have hparts : ['/'].splitOn '/' = ([[], []] : List Text) := by decide
      unfold Retokened at h
      rw [show (siteCrateOf ok).path _ = ['/'] from rfl, hparts] at h
      generalize p.splitOn '/' = parts at h ⊢
      cases h with
      | cons hhead htail =>
        cases htail with
        | cons hnext hrest =>
          cases hrest
          rcases hhead with rfl | ⟨_, _, hbot, _⟩
          · rcases hnext with rfl | ⟨_, _, hbot, _⟩
            · rfl
            · cases hbot
          · cases hbot
    have hjoined : ['/'].intercalate (p.splitOn '/') = p := List.intercalate_splitOn '/'
    rw [← hjoined, ← hcut]
    rfl
  part_setPath _ _ _ := rfl
  hasLogin_setPart _ _ _ := rfl
  hostStr_setPart _ _ _ := rfl
  path_setPart _ _ _ := rfl
  part_setPart u k old q hold hq := by
    cases k with
    | query =>
      cases hold
      have hall : q.all ok = true := by
        rw [List.all_eq_true]
        intro c hc
        rcases hq c hc with hc | hc
        · exact List.all_eq_true.mp u.2 c hc
        · exact hpair c hc
      show some ((queryOf ok q).getD u).1 = some q
      rw [queryOf, dif_pos hall]
      rfl
    | fragment => cases hold
  part_setPart_other u k l q hne := by
    cases k with
    | query =>
      cases l with
      | query => exact absurd rfl hne
      | fragment => rfl
    | fragment => rfl
  part_marked t u k q hparse hq := by
    cases k with
    | query =>
      obtain ⟨_, hsite, _⟩ := Option.bind_eq_some_iff.mp hparse
      exact (siteQuery_eq_some hsite).1
    | fragment => cases hq
  value_shorter t u k q pair name value hparse hq hmem hform := by
    cases k with
    | query =>
      cases hq
      obtain ⟨query, hsite, hurl⟩ := Option.bind_eq_some_iff.mp hparse
      have hlen := (siteQuery_eq_some hsite).2
      rw [← queryOf_eq_some hurl] at hlen
      have hvalue := length_value_le (fun c hc => hascii c (List.all_eq_true.mp u.2 c (mem_of_mem_splitOn hmem hc))) hform
      have hpart := length_splitOn_le hmem
      omega
    | fragment => cases hq

end

abbrev SiteUrl : Type := { q : Text // q.all pairChar = true }

def siteUrl (q : Text) : Option SiteUrl := if h : q.all pairChar = true then some ⟨q, h⟩ else none

/-- Links to one site: `https://h/?<query>`, also written `https:h?<query>`. -/
def siteCrate : UrlCrate where
  Url := SiteUrl
  parse t := (siteQuery t).bind siteUrl
  serialize u := "https://h/?".toList ++ u.1
  hasLogin _ := false
  dropLogin u := u
  hostStr _ := some ['h']
  path _ := ['/']
  setPath u _ := u
  part
    | .query, u => some u.1
    | .fragment, _ => none
  setPart
    | .query, u, q => (siteUrl q).getD u
    | .fragment, u, _ => u

theorem siteCrate_eq : siteCrate = siteCrateOf pairChar := by
  unfold siteCrate siteCrateOf
  congr
  · funext k u
    cases k with
    | query => rfl
    | fragment => rfl
  · funext k u q
    cases k with
    | query => rfl
    | fragment => rfl

theorem siteCrate_lawful : siteCrate.Lawful := by
  rw [siteCrate_eq]
  exact siteCrateOf_lawful (fun _ h => h) fun _ h => pairChar_lt h

/-- A token, and a link with a token in a value. -/
theorem no_secret_survives_token :
    scrubPairs (scrub siteCrate 50) [] "token=a&u=https://h/?token=b".toList =
        some { owned := some "token=REDACTED&u=https%3A%2F%2Fh%2F%3Ftoken%3DREDACTED".toList } ∧
      ∃ enough out again,
        (∀ fuel, enough ≤ fuel → scrubPairs (scrub siteCrate fuel) [] "token=a&u=https://h/?token=b".toList = some out ∧
          scrubPairs (scrub siteCrate fuel) [] (out.after "token=a&u=https://h/?token=b".toList) = some again) ∧
        Clean siteCrate [] (out.after "token=a&u=https://h/?token=b".toList) ∧
        (again.marked = true ↔ Holds siteCrate [] (out.after "token=a&u=https://h/?token=b".toList)) := by
  refine ⟨by decide +kernel, ?_⟩
  obtain ⟨⟨enough, out, again, hruns, hclean, _, _, hmarked⟩, _⟩ :=
    no_secret_survives siteCrate_lawful [] "token=a&u=https://h/?token=b".toList
  exact ⟨enough, out, again, hruns, hclean, hmarked⟩

/-- A value that the `url` crate takes for a link, but that is written without
`//`, keeps its token. -/
theorem link_without_slashes_kept :
    siteCrate.Lawful ∧ (∀ fuel, scrubPairs (scrub siteCrate fuel) [] "u=https:h?token=x".toList = some {}) ∧
      ∃ link, formPair "u=https:h?token=x".toList = some ("u".toList, "https:h?token=x".toList) ∧
        siteCrate.parse "https:h?token=x".toList = some link ∧ siteCrate.part .query link = some "token=x".toList ∧
        formPair "token=x".toList = some ("token".toList, "x".toList) ∧ secretParam "token".toList [] = true := by
  refine ⟨siteCrate_lawful, ?_, ⟨"token=x".toList, by decide⟩, by decide +kernel, ?_, rfl, by decide +kernel, by decide +kernel⟩
  · intro fuel
    have hpair : scrubPair (scrub siteCrate fuel) [] "u=https:h?token=x".toList = some {} := by
      have hform : formPair "u=https:h?token=x".toList = some ("u".toList, "https:h?token=x".toList) := by decide +kernel
      have hplain : secretParam "u".toList [] = false := by decide +kernel
      have hmark : ¬ schemeMark <:+: "https:h?token=x".toList := by decide
      rw [scrubPair, hform]
      dsimp only
      rw [hplain, if_neg hmark]
      rfl
    have hcut : "u=https:h?token=x".toList.splitOn '&' = ["u=https:h?token=x".toList] := by decide +kernel
    rw [scrubPairs, hcut, List.mapM_cons, hpair]
    rfl
  · have hsite : siteQuery "https:h?token=x".toList = some "token=x".toList := by decide +kernel
    show (siteQuery "https:h?token=x".toList).bind siteUrl = _
    have hall : "token=x".toList.all pairChar = true := by decide +kernel
    rw [hsite, Option.bind_some, siteUrl, dif_pos hall]
    rfl

end Hyperfetch.History
