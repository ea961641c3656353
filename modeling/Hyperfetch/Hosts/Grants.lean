import Hyperfetch.Hosts.Callers
import Mathlib.Tactic

/-!
# What the budget grants (`hosts.rs`)

In every state a run reaches, the entries count exactly the live slots and
the waits, and a slot is only given out within every limit there is and the
cap in force (`budget_accounts`). A host stays known while it has a live slot
or someone waits under a limit. It may be forgotten under a wait without one,
which has nothing to lose by it (`forgotten_under_a_wait`).
-/

namespace Hyperfetch

open Weft

namespace HostBudget

variable {N : Notify}

/-- `n` requests open to `key`'s host are no more than the limit of the one
that joins, any limit of a live slot or a wait, and the cap in force. -/
structure Within (s : State N) (key : HostKey) (limit : Nat) (cap : Option Nat) (n : Nat) : Prop where
  own : 0 < limit → n ≤ limit
  others : ∀ c ∈ s.callers, c.key = key → c.holds = true ∨ c.waits = true → 0 < c.limit → n ≤ c.limit
  cap : ∀ v, cap = some v → n ≤ v

theorem mem_slotsOf {τ : Type} {callers : List (Caller τ)} {c : Caller τ} (hc : c ∈ callers)
    (hholds : c.holds = true) : c.limit ∈ slotsOf (callers : Multiset (Caller τ)) c.key :=
  Multiset.mem_map_of_mem _ (Multiset.mem_filter.mpr ⟨Multiset.mem_coe.mpr hc, rfl, hholds⟩)

theorem mem_waitsOf {τ : Type} {callers : List (Caller τ)} {c : Caller τ} (hc : c ∈ callers)
    (hwaits : c.waits = true) : c.limit ∈ waitsOf (callers : Multiset (Caller τ)) c.key :=
  Multiset.mem_map_of_mem _ (Multiset.mem_filter.mpr ⟨Multiset.mem_coe.mpr hc, rfl, hwaits⟩)

/-- An entry that counts something is there. -/
theorem Hosts.get_of_view {h : Hosts} {key : HostKey} (hview : h.view key ≠ {}) :
    h.entries.get key = some (h.view key) := by
  unfold view at hview ⊢
  cases hget : h.entries.get key with
  | none =>
    rw [hget] at hview
    exact (hview rfl).elim
  | some e => rfl

namespace State.Accounted

variable {s : State N} {c : Caller N.Ticket}

/-- A live slot is counted, so giving it back takes nothing below zero. -/
theorem slot_counted (h : s.Accounted) (hc : c ∈ s.callers) (hholds : c.holds = true) :
    ∃ e, s.hosts.entries.get c.key = some e ∧ 0 < e.openCount ∧ (0 < c.limit → c.limit ∈ e.held.keys) := by
  have hbal := h c.key
  have hmem := mem_slotsOf hc hholds
  have hopen : 0 < (s.hosts.view c.key).openCount := by
    rw [hbal.openCount]
    exact Multiset.card_pos_iff_exists_mem.mpr ⟨_, hmem⟩
  refine ⟨_, Hosts.get_of_view fun hempty => ?_, hopen, fun hlimit => ?_⟩
  · rw [hempty] at hopen
    cases hopen
  · exact hbal.held.mem_keys.mpr (Multiset.mem_filter.mpr ⟨hmem, hlimit⟩)

/-- A wait under a limit is counted. -/
theorem wait_counted (h : s.Accounted) (hc : c ∈ s.callers) (hwaits : c.waits = true) (hlimit : 0 < c.limit) :
    ∃ e, s.hosts.entries.get c.key = some e ∧ c.limit ∈ e.waiting.keys := by
  have hmem : c.limit ∈ (s.hosts.view c.key).waiting.keys :=
    (h c.key).waiting.mem_keys.mpr (Multiset.mem_filter.mpr ⟨mem_waitsOf hc hwaits, hlimit⟩)
  refine ⟨_, Hosts.get_of_view fun hempty => ?_, hmem⟩
  rw [hempty] at hmem
  exact Finset.notMem_empty _ hmem

/-- What is granted is within every limit, its own and the cap among them. -/
theorem granted_within (h : s.Accounted) {key : HostKey} {limit now unix : Nat} {slot : HostSlot}
    (hsome : (s.hosts.tryAcquire key limit now unix).2 = some slot) :
    Within s key limit ((s.hosts.entry key now unix).cap key now)
      ((s.hosts.tryAcquire key limit now unix).1.view key).openCount := by
  have hsame := s.hosts.sameBudget_entry key now unix
  have hbal := (h key).same hsame
  unfold Hosts.tryAcquire at hsome ⊢
  simp only at hsome ⊢
  split at hsome
  · cases hsome
  rename_i hfree
  rw [Entry.allowance_le_iff] at hfree
  push Not at hfree
  obtain ⟨hown, hheld, hwaiting, hcap⟩ := hfree
  rw [if_neg (by rw [Entry.allowance_le_iff]; push Not; exact ⟨hown, hheld, hwaiting, hcap⟩), Hosts.view_put,
    if_pos rfl]
  refine ⟨hown, ?_, hcap⟩
  rintro c hc rfl hlive hlimit
  rcases hlive with hholds | hwaits
  · exact hheld _ (hbal.held.mem_keys.mpr (Multiset.mem_filter.mpr ⟨mem_slotsOf hc hholds, hlimit⟩))
  · exact hwaiting _ (hbal.waiting.mem_keys.mpr (Multiset.mem_filter.mpr ⟨mem_waitsOf hc hwaits, hlimit⟩))

end State.Accounted

/-- In every state a run reaches: each host's entry counts its live slots and
the limits of its slots and waits; what counts a live slot, or a wait under a
limit, is there; and a slot is given out only within all limits and the cap. -/
theorem budget_accounts (N : Notify) : (budget N).toTSys.Invariant fun s =>
    (∀ key, Balanced (s.hosts.view key) (slotsOf (s.callers : Multiset (Caller N.Ticket)) key)
      (waitsOf (s.callers : Multiset (Caller N.Ticket)) key)) ∧
    (∀ c ∈ s.callers, c.holds = true →
      ∃ e, s.hosts.entries.get c.key = some e ∧ 0 < e.openCount ∧ (0 < c.limit → c.limit ∈ e.held.keys)) ∧
    (∀ c ∈ s.callers, c.waits = true → 0 < c.limit →
      ∃ e, s.hosts.entries.get c.key = some e ∧ c.limit ∈ e.waiting.keys) ∧
    ∀ key limit now unix slot, (s.hosts.tryAcquire key limit now unix).2 = some slot →
      Within s key limit ((s.hosts.entry key now unix).cap key now)
        ((s.hosts.tryAcquire key limit now unix).1.view key).openCount := by
  intro s hreach
  have h := accounted_invariant s hreach
  refine ⟨h, fun c hc => h.slot_counted hc, fun c hc => h.wait_counted hc, ?_⟩
  intro key limit now unix slot hsome
  exact h.granted_within hsome

def port (n : Nat) : HostKey := ⟨"http", "h", some n, 0⟩

/-- A run that gives one request its slot, and keeps a second one waiting. -/
theorem budget_accounts_two : ∃ s, (budget .counting).run (State.start .counting) [
      .enter (port 0) 1 0 0, .register 0, .check 0 0 0, .settle 0 0,
      .enter (port 0) 1 0 0, .register 1, .check 1 0 0] = some s ∧
    s.callers.map Caller.holds = [true, false] ∧
    (s.hosts.view (port 0)).openCount =
      (slotsOf (s.callers : Multiset (Caller Notify.counting.Ticket)) (port 0)).card := by
  have hrun : ∃ s, (budget .counting).run (State.start .counting) [
      .enter (port 0) 1 0 0, .register 0, .check 0 0 0, .settle 0 0,
      .enter (port 0) 1 0 0, .register 1, .check 1 0 0] = some s ∧
    s.callers.map Caller.holds = [true, false] := ⟨_, rfl, rfl⟩
  obtain ⟨s, hs, hholds⟩ := hrun
  have hreach := Machine.reachable_run (reachable_start .counting) hs
  exact ⟨s, hs, hholds, ((budget_accounts .counting s hreach).1 (port 0)).openCount⟩

/-! ## A host that is forgotten -/

theorem port_injective : Function.Injective port := by
  intro a b h
  simpa [port] using h

/-- What was seen of a host that is to be remembered. -/
def capFour : HostProfile := { connectionCap := some 4 }

theorem Hosts.keys_put (h : Hosts) (key : HostKey) (e : Entry) :
    (h.put key e).entries.keys = insert key h.entries.keys := rfl

theorem Hosts.forgetIdle_of_few {h : Hosts} (hfew : h.entries.keys.card ≤ keepHosts) (now : Nat) :
    h.forgetIdle now = h := if_neg (Nat.not_lt.mpr hfew)

theorem Hosts.forgetIdle_of_many {h : Hosts} (hmany : keepHosts < h.entries.keys.card) {now : Nat}
    {key : HostKey} {e : Entry} (he : h.entries.get key = some e) (hidle : e.isIdle now = true) :
    (h.forgetIdle now).entries.get key = none := by
  rw [forgetIdle, if_pos hmany, Table.get_filter, he]
  simp [hidle]

theorem card_ports (n : Nat) : ((Finset.range n).image port).card = n := by
  rw [Finset.card_image_of_injective _ port_injective, Finset.card_range]

theorem insert_port (n : Nat) :
    insert (port n) ((Finset.range n).image port) = (Finset.range (n + 1)).image port := by
  rw [Finset.range_add_one, Finset.image_insert]

/-- Up to 256 hosts are all remembered. -/
theorem run_records (n : Nat) (hn : n ≤ keepHosts) : ∃ s : State .counting,
    (budget .counting).run (State.start .counting)
      ((List.range n).map fun i => .record (port i) capFour 0 0) = some s ∧
    s.hosts.entries.keys = (Finset.range n).image port ∧ s.hosts.kept.hosts = Table.empty ∧ s.callers = [] := by
  induction n with
  | zero => exact ⟨_, rfl, rfl, rfl, rfl⟩
  | succ n ih =>
    obtain ⟨s, hs, hkeys, hkept, hcallers⟩ := ih (by omega)
    let e := s.hosts.entry (port n) 0 0
    let put := s.hosts.put (port n) { e with facts := e.facts.record capFour 0 }
    have hput : put.entries.keys = (Finset.range (n + 1)).image port := by
      rw [Hosts.keys_put, hkeys, insert_port]
    have hsame : put.forgetIdle 0 = put := Hosts.forgetIdle_of_few (by rw [hput, card_ports]; exact hn) 0
    refine ⟨s.did (put.forgetIdle 0) true s.callers, ?_, ?_, ?_, hcallers⟩
    · rw [List.range_succ, List.map_append, Machine.run_append, hs]
      rfl
    · rw [hsame]
      exact hput
    · rw [hsame]
      exact hkept

/-- With 256 more hosts remembered, one that somebody waits for without a limit
of its own is forgotten before the first look at its budget. -/
theorem forgotten_under_a_wait : ¬ ∀ N, (budget N).toTSys.Invariant fun s =>
    ∀ c ∈ s.callers, c.holds = true ∨ c.waits = true → ∃ e, s.hosts.entries.get c.key = some e := by
  intro hall
  obtain ⟨s, hs, hkeys, hkept, hcallers⟩ := run_records 256 le_rfl
  have hnew : s.hosts.entries.get (port 256) = none := by
    rw [← Table.not_mem_keys, hkeys, Finset.mem_image]
    rintro ⟨i, hi, hport⟩
    rw [port_injective hport] at hi
    exact absurd (Finset.mem_range.mp hi) (lt_irrefl _)
  -- the wait makes the host's entry, and its limit of none adds nothing to it
  have hentry : s.hosts.entry (port 256) 0 0 = {} := by
    rw [Hosts.entry, hnew, Hosts.newEntry, Hosts.keptOf, hkept]
    rfl
  let waiting := s.hosts.put (port 256) {}
  have hwaiting : s.hosts.startWaiting (port 256) 0 0 0 = waiting := by
    rw [Hosts.startWaiting, hentry]
    rfl
  let e := waiting.entry (port 257) 0 0
  let put := waiting.put (port 257) { e with facts := e.facts.record capFour 0 }
  have hget : put.entries.get (port 256) = some {} := by
    rw [Hosts.get_put, if_neg (by decide), Hosts.get_put, if_pos rfl]
  have hmany : keepHosts < put.entries.keys.card := by
    rw [Hosts.keys_put, Hosts.keys_put, hkeys, insert_port, insert_port, card_ports]
    decide
  let callers : List (Caller Notify.counting.Ticket) := [⟨port 256, 0, .entered⟩]
  have hsteps : (budget .counting).run s [.enter (port 256) 0 0 0, .record (port 257) capFour 0 0] =
      some ((s.did waiting false callers).did (put.forgetIdle 0) true callers) := by
    simp only [Machine.run_cons, budget, State.step, Nat.zero_le, if_true, Option.bind_some, hwaiting, hcallers]
    rfl
  have hreach := Machine.reachable_run (Machine.reachable_run (reachable_start .counting) hs) hsteps
  obtain ⟨e', he'⟩ := hall .counting _ hreach ⟨port 256, 0, .entered⟩ List.mem_cons_self (.inr rfl)
  have hidle : ({} : Entry).isIdle 0 = true := by decide
  have hgone := Hosts.forgetIdle_of_many hmany hget hidle
  cases hgone.symm.trans he'

end HostBudget

end Hyperfetch
