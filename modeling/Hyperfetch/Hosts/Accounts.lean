import Hyperfetch.Hosts.Budget
import Mathlib.Tactic

/-!
# The books of the budget

For each host there are the limits of the live slots and those of the waits.
`Balanced` says an entry's counts are theirs, `Accounts` that every host's
are: a host without an entry then has no slot, and no wait under a limit.
Each operation keeps the accounts as it books or strikes a slot or a wait.
-/

namespace Hyperfetch

open Weft

namespace HostBudget

/-- The entry counts the live slots and the waits, given by their limits. -/
structure Balanced (e : Entry) (slots waits : Multiset Nat) : Prop where
  openCount : e.openCount = slots.card
  held : e.held.Tallies (slots.filter (0 < ·))
  waiting : e.waiting.Tallies (waits.filter (0 < ·))

/-- `limits` with one more at `key`. -/
def book (limits : HostKey → Multiset Nat) (key : HostKey) (limit : Nat) : HostKey → Multiset Nat :=
  Function.update limits key (limit ::ₘ limits key)

/-- What is known of a host, also when it has no entry. -/
def Hosts.view (h : Hosts) (key : HostKey) : Entry := (h.entries.get key).getD {}

def Accounts (h : Hosts) (slots waits : HostKey → Multiset Nat) : Prop :=
  ∀ key, Balanced (h.view key) (slots key) (waits key)

/-- The same requests are counted as open and as waiting. -/
structure SameBudget (e e' : Entry) : Prop where
  openCount : e'.openCount = e.openCount
  held : e'.held = e.held
  waiting : e'.waiting = e.waiting

theorem Balanced.same {e e' : Entry} {slots waits : Multiset Nat} (h : Balanced e slots waits)
    (hsame : SameBudget e e') : Balanced e' slots waits :=
  ⟨hsame.openCount ▸ h.openCount, hsame.held ▸ h.held, hsame.waiting ▸ h.waiting⟩

/-! ## One entry -/

theorem tallies_addLimit {limits : Limits} {m : Multiset Nat} (h : limits.Tallies (m.filter (0 < ·)))
    (limit : Nat) : (addLimit limits limit).Tallies ((limit ::ₘ m).filter (0 < ·)) := by
  unfold addLimit
  by_cases hlimit : 0 < limit
  · rw [if_pos hlimit, Multiset.filter_cons_of_pos _ hlimit]
    exact h.bump limit
  · rw [if_neg hlimit, Multiset.filter_cons_of_neg _ hlimit]
    exact h

theorem tallies_removeLimit {limits : Limits} {limit : Nat} {m : Multiset Nat}
    (h : limits.Tallies ((limit ::ₘ m).filter (0 < ·))) :
    (removeLimit limits limit).Tallies (m.filter (0 < ·)) := by
  unfold removeLimit
  by_cases hlimit : 0 < limit
  · rw [Multiset.filter_cons_of_pos _ hlimit] at h
    exact h.unbump
  · rw [Multiset.filter_cons_of_neg _ hlimit] at h
    -- no limit is not counted, so there is nothing to remove
    have hnone : limits.get limit = none := by
      rw [← Table.not_mem_keys, h.mem_keys]
      exact fun hmem => hlimit (Multiset.mem_filter.mp hmem).2
    intro j
    rw [Table.unbump, Table.get_alter, hnone, ← h j]
    split
    · rename_i hj
      rw [hj, hnone]
      rfl
    · rfl

/-- An idle entry has nothing to count. -/
theorem Balanced.forget {e : Entry} {slots waits : Multiset Nat} {now : Nat} (h : Balanced e slots waits)
    (hidle : e.isIdle now = true) : Balanced {} slots waits := by
  simp only [Entry.isIdle, Bool.and_eq_true, beq_iff_eq, decide_eq_true_eq] at hidle
  obtain ⟨⟨⟨hopen, hwaiting⟩, _⟩, _⟩ := hidle
  have hslots : slots = 0 := Multiset.card_eq_zero.mp (h.openCount ▸ hopen)
  have hwaits : waits.filter (0 < ·) = 0 := h.waiting.keys_eq_empty.mp hwaiting
  refine ⟨by rw [hslots]; rfl, ?_, ?_⟩
  · rw [hslots]
    exact Table.tallies_empty
  · rw [hwaits]
    exact Table.tallies_empty

/-- Every limit an entry counts is one. -/
theorem Balanced.keys_pos {e : Entry} {slots waits : Multiset Nat} (h : Balanced e slots waits) :
    (∀ l ∈ e.held.keys, 0 < l) ∧ ∀ l ∈ e.waiting.keys, 0 < l :=
  ⟨fun _ hl => (Multiset.mem_filter.mp (h.held.mem_keys.mp hl)).2,
    fun _ hl => (Multiset.mem_filter.mp (h.waiting.mem_keys.mp hl)).2⟩

/-! ## Every host -/

theorem book_self (limits : HostKey → Multiset Nat) (key : HostKey) (limit : Nat) :
    book limits key limit key = limit ::ₘ limits key := Function.update_self _ _ _

theorem book_of_ne {limits : HostKey → Multiset Nat} {key j : HostKey} {limit : Nat} (hj : j ≠ key) :
    book limits key limit j = limits j := Function.update_of_ne hj _ _

theorem Hosts.view_of_get {h : Hosts} {key : HostKey} {e : Entry} (he : h.entries.get key = some e) :
    h.view key = e := by rw [view, he, Option.getD_some]

theorem Hosts.view_put (h : Hosts) (key j : HostKey) (e : Entry) :
    (h.put key e).view j = if j = key then e else h.view j := by
  rw [view, get_put]
  split <;> rfl

/-- An entry made anew counts nothing, as no entry does. -/
theorem Hosts.sameBudget_entry (h : Hosts) (key : HostKey) (now unix : Nat) :
    SameBudget (h.view key) (h.entry key now unix) := by
  unfold view entry
  cases h.entries.get key <;> exact ⟨rfl, rfl, rfl⟩

namespace Accounts

variable {h : Hosts} {slots waits : HostKey → Multiset Nat} {key : HostKey} {limit now unix : Nat}

/-- The accounts depend on the entries only. -/
theorem congr (ha : Accounts h slots waits) {h' : Hosts} (hentries : h'.entries = h.entries) :
    Accounts h' slots waits := by
  intro j
  rw [Hosts.view, hentries]
  exact ha j

/-- One entry changes, and with it what is booked for its host. -/
theorem put (ha : Accounts h slots waits) {e : Entry} {slots' waits' : HostKey → Multiset Nat}
    (he : Balanced e (slots' key) (waits' key)) (hslots : ∀ j ≠ key, slots' j = slots j)
    (hwaits : ∀ j ≠ key, waits' j = waits j) : Accounts (h.put key e) slots' waits' := by
  intro j
  rw [Hosts.view_put]
  by_cases hj : j = key
  · rw [if_pos hj, hj]
    exact he
  · rw [if_neg hj, hslots j hj, hwaits j hj]
    exact ha j

theorem put_same (ha : Accounts h slots waits) {e : Entry} (he : SameBudget (h.view key) e) :
    Accounts (h.put key e) slots waits :=
  ha.put ((ha key).same he) (fun _ _ => rfl) fun _ _ => rfl

theorem forgetIdle (ha : Accounts h slots waits) (now : Nat) : Accounts (h.forgetIdle now) slots waits := by
  intro j
  rcases h.get_forgetIdle now j with hsame | ⟨e, he, hidle, hnone⟩
  · rw [Hosts.view, hsame]
    exact ha j
  · rw [Hosts.view, hnone]
    exact Balanced.forget (Hosts.view_of_get he ▸ ha j) hidle

theorem record (ha : Accounts h slots waits) (seen : HostProfile) :
    Accounts (h.record key seen now unix).1 slots waits := by
  have hsame := h.sameBudget_entry key now unix
  have hput : Accounts (h.put key { h.entry key now unix with
      facts := (h.entry key now unix).facts.record seen now }) slots waits :=
    ha.put_same ⟨hsame.openCount, hsame.held, hsame.waiting⟩
  exact hput.forgetIdle now

/-- A refused request changes nothing that is counted. -/
theorem tryAcquire_none (ha : Accounts h slots waits) (hnone : (h.tryAcquire key limit now unix).2 = none) :
    Accounts (h.tryAcquire key limit now unix).1 slots waits := by
  unfold Hosts.tryAcquire at hnone ⊢
  simp only at hnone ⊢
  split at hnone
  · rename_i hfull
    rw [if_pos hfull]
    exact ha.put_same (h.sameBudget_entry key now unix)
  · cases hnone

theorem tryAcquire_some (ha : Accounts h slots waits) {slot : HostSlot}
    (hsome : (h.tryAcquire key limit now unix).2 = some slot) :
    Accounts (h.tryAcquire key limit now unix).1 (book slots key limit) waits := by
  unfold Hosts.tryAcquire at hsome ⊢
  simp only at hsome ⊢
  split at hsome
  · cases hsome
  · rename_i hfree
    have he := (ha key).same (h.sameBudget_entry key now unix)
    rw [if_neg hfree]
    refine ha.put ⟨?_, ?_, he.waiting⟩ (fun j hj => book_of_ne hj) fun _ _ => rfl
    · rw [book_self, Multiset.card_cons, ← he.openCount]
      rfl
    · rw [book_self]
      exact tallies_addLimit he.held limit

theorem startWaiting (ha : Accounts h slots waits) :
    Accounts (h.startWaiting key limit now unix) slots (book waits key limit) := by
  have he := (ha key).same (h.sameBudget_entry key now unix)
  refine ha.put ⟨he.openCount, he.held, ?_⟩ (fun _ _ => rfl) fun j hj => book_of_ne hj
  rw [book_self]
  exact tallies_addLimit he.waiting limit

theorem stopWaiting (ha : Accounts h slots (book waits key limit)) :
    Accounts (h.stopWaiting key limit now).1 slots waits := by
  have hkey := ha key
  rw [book_self] at hkey
  unfold Hosts.stopWaiting
  cases he : h.entries.get key with
  | none =>
    -- a host forgotten while the wait went on: the wait had no limit
    refine forgetIdle (fun j => ?_) now
    by_cases hj : j = key
    · subst hj
      have hview : h.view j = {} := by rw [Hosts.view, he]; rfl
      have hempty : removeLimit Table.empty limit = Table.empty := Table.ext_get fun k => by
        rw [removeLimit, Table.unbump, Table.get_alter]
        split <;> rfl
      rw [hview] at hkey ⊢
      exact ⟨hkey.openCount, hkey.held, hempty ▸ tallies_removeLimit hkey.waiting⟩
    · rw [← @book_of_ne waits key j limit hj]
      exact ha j
  | some e =>
    rw [Hosts.view_of_get he] at hkey
    have hput : Accounts (h.put key { e with waiting := removeLimit e.waiting limit }) slots waits :=
      ha.put ⟨hkey.openCount, hkey.held, tallies_removeLimit hkey.waiting⟩ (fun _ _ => rfl)
        fun j hj => (book_of_ne hj).symm
    exact hput.forgetIdle now

/-- A slot that is given back was counted. -/
theorem release (ha : Accounts h (book slots key limit) waits) :
    Accounts (h.release key limit now) slots waits := by
  have hkey := ha key
  rw [book_self] at hkey
  have hopen : (h.view key).openCount = (slots key).card + 1 := by
    rw [hkey.openCount, Multiset.card_cons]
  unfold Hosts.release
  cases he : h.entries.get key with
  | none =>
    rw [Hosts.view, he] at hopen
    cases hopen
  | some e =>
    rw [Hosts.view_of_get he] at hkey hopen
    have hcount : e.openCount - 1 = (slots key).card := by rw [hopen, Nat.add_sub_cancel]
    refine forgetIdle ?_ now
    refine ha.put ?_ (fun j hj => (book_of_ne hj).symm) fun _ _ => rfl
    exact ⟨hcount, tallies_removeLimit hkey.held, hkey.waiting⟩

theorem throttled (ha : Accounts h slots waits) : Accounts (h.throttled key now unix) slots waits := by
  intro j
  rcases h.get_throttled key now unix j with hsame | ⟨e, rfl, he, _, hnew⟩
  · rw [Hosts.view, hsame]
    exact ha j
  · rw [Hosts.view, hnew]
    exact (Hosts.view_of_get he ▸ ha j).same ⟨rfl, rfl, rfl⟩

theorem accepted (ha : Accounts h slots waits) : Accounts (h.accepted key now unix).1 slots waits := by
  intro j
  rcases h.get_accepted key now unix j with hsame | ⟨e, _, _, rfl, he, _, hnew⟩
  · rw [Hosts.view, hsame]
    exact ha j
  · rw [Hosts.view, hnew]
    exact (Hosts.view_of_get he ▸ ha j).same ⟨rfl, rfl, rfl⟩

end Accounts

end HostBudget

end Hyperfetch
