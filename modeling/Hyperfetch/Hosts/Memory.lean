import Hyperfetch.Hosts.Budget
import Hyperfetch.Weft.Foremost

/-!
# What pruning forgets (`hosts.rs`)

`Memory::prune` drops what is too old or tells nothing, whatever its age, and
past `KEEP_KEPT` what was learned first. The second cut is made at a time, so
hosts learned in the very second of the last one kept all stay.
-/

namespace Hyperfetch

open Weft

namespace HostBudget

/-- A cap or a number of connections is known of the host. -/
def Kept.tells (kept : Kept) : Bool := kept.connections.isSome || kept.cap.isSome

/-- The hosts that tell something, learned within the age limit. -/
def Memory.fresh (m : Memory) (now : Nat) : Table String Kept :=
  m.hosts.filter fun _ kept => kept.tells && decide (now - kept.at_ < keptFor)

namespace Memory

variable {m : Memory} {now : Nat}

theorem get_fresh {origin : String} {kept : Kept} : (m.fresh now).get origin = some kept ↔
    m.hosts.get origin = some kept ∧ kept.tells = true ∧ now - kept.at_ < keptFor := by
  rw [fresh, Table.get_filter_eq_some, Bool.and_eq_true, decide_eq_true_eq]

/-- Pruning keeps the foremost of the fresh hosts, by when they were learned. -/
theorem prune_hosts (m : Memory) (now : Nat) :
    (m.prune now).hosts = (m.fresh now).foremost Kept.at_ keepKept := by
  unfold prune Table.foremost
  show (if _ then _ else _ : Memory).hosts = _
  by_cases hmany : keepKept < (m.fresh now).keys.card
  · rw [if_pos hmany]
    exact congrArg hosts (if_pos hmany)
  · rw [if_neg hmany]
    exact congrArg hosts (if_neg hmany)

theorem keepKept_pos : 0 < keepKept := by decide

/-- What is kept was there, tells something and is within the age limit. What
is dropped of that kind was learned before all that is kept. At least
`keepKept` are kept where there are so many. Fewer than `keepKept` of them
were learned after any one, so where no two were learned in the same second,
at most `keepKept` are kept. -/
theorem prune_keeps_the_newest (m : Memory) (now : Nat) :
    (∀ origin kept, (m.prune now).hosts.get origin = some kept →
      m.hosts.get origin = some kept ∧ kept.tells = true ∧ now - kept.at_ < keptFor) ∧
    (∀ origin kept, m.hosts.get origin = some kept → kept.tells = true → now - kept.at_ < keptFor →
      (m.prune now).hosts.get origin = none →
      ∀ other stays, (m.prune now).hosts.get other = some stays → kept.at_ < stays.at_) ∧
    min keepKept (m.fresh now).keys.card ≤ (m.prune now).hosts.keys.card ∧
    (∀ origin kept, (m.prune now).hosts.get origin = some kept →
      ((m.prune now).hosts.filter fun _ newer => decide (kept.at_ < newer.at_)).keys.card < keepKept) ∧
    ((∀ origin other kept stays, (m.prune now).hosts.get origin = some kept →
        (m.prune now).hosts.get other = some stays → kept.at_ = stays.at_ → origin = other) →
      (m.prune now).hosts.keys.card ≤ keepKept) := by
  rw [prune_hosts]
  refine ⟨?_, ?_, ?_, ?_, ?_⟩
  · intro origin kept hget
    exact get_fresh.mp (Table.get_of_foremost hget)
  · intro origin kept hget htells hage hdropped other stays hstays
    exact Table.lt_of_foremost keepKept_pos (get_fresh.mpr ⟨hget, htells, hage⟩) hdropped hstays
  · exact Table.min_le_card_foremost _ keepKept_pos
  · intro origin kept hget
    exact Table.card_above_lt keepKept_pos hget
  · intro hdistinct
    exact Table.card_foremost_le keepKept_pos hdistinct

/-! ## Where more is kept, or something newer dropped -/

/-- A host of which nothing is known any more, learned after another. -/
def nothingTold : Memory where
  hosts := (Table.empty.set "http://a.example:80" { connections := some 4, at_ := 0 }).set
    "http://b.example:80" { at_ := 1 }

/-- As many hosts as `n`, all learned in one second. -/
def sameSecond (n : Nat) : Memory where
  hosts :=
    { keys := (Finset.range n).image fun i => String.ofList (List.replicate i 'a')
      get := fun origin =>
        if origin ∈ (Finset.range n).image fun i => String.ofList (List.replicate i 'a') then
          some { cap := some 1 }
        else none
      mem_keys := fun origin => by
        split <;> simp_all }

theorem get_sameSecond {n : Nat} {origin : String} {kept : Kept}
    (h : (sameSecond n).hosts.get origin = some kept) : kept = { cap := some 1 } := by
  simp only [sameSecond] at h
  split at h
  · exact (Option.some.inj h).symm
  · cases h

theorem fresh_sameSecond (n : Nat) : (sameSecond n).fresh 0 = (sameSecond n).hosts := by
  refine Table.ext_get fun origin => ?_
  cases hget : (sameSecond n).hosts.get origin with
  | none => rw [fresh, Table.get_filter, hget, Option.filter_none]
  | some kept =>
    rw [get_fresh]
    cases get_sameSecond hget
    exact ⟨hget, rfl, by decide⟩

/-- None of them goes. -/
theorem card_sameSecond (n : Nat) : ((sameSecond n).prune 0).hosts.keys.card = n := by
  have hcard : (sameSecond n).hosts.keys.card = n := by
    refine (Finset.card_image_of_injective _ fun i j hij => ?_).trans (Finset.card_range n)
    have hlen := congrArg (fun s : String => s.toList.length) hij
    simpa only [String.toList_ofList, List.length_replicate] using hlen
  have hall : ((sameSecond n).prune 0).hosts = (sameSecond n).hosts := by
    rw [prune_hosts, fresh_sameSecond]
    refine Table.foremost_of_level keepKept_pos fun origin other kept stays hkept hstays => ?_
    rw [get_sameSecond hkept, get_sameSecond hstays]
  rw [hall, hcard]

/-- A fresh host is dropped that was learned after one kept, as nothing is
known of it; and of 301 hosts learned in one second all are kept. -/
theorem prune_not_the_newest :
    ((nothingTold.prune 1).hosts.get "http://a.example:80" = some { connections := some 4, at_ := 0 } ∧
      nothingTold.hosts.get "http://b.example:80" = some { at_ := 1 } ∧ 1 - 1 < keptFor ∧
      (nothingTold.prune 1).hosts.get "http://b.example:80" = none) ∧
    keepKept < ((sameSecond 301).prune 0).hosts.keys.card := by
  refine ⟨⟨by decide, by decide, by decide, by decide⟩, ?_⟩
  rw [card_sameSecond]
  decide

end Memory

end HostBudget

end Hyperfetch
