import Hyperfetch.Weft.Table
import Mathlib.Tactic

/-!
# What is known of one host (`hosts.rs`)

An entry keeps the facts learned, each until it is `profileTtl` old, and the
host's budget: how many requests are open, the limits they were opened under
and those of the requests waiting. `allowance` is the smallest of these, of
the request's own limit and of the cap in force; `allowance_le_iff` is all the
rest of the development uses of it.

Instants are nanoseconds, and differences of them saturate. No limit at all
is `⊤`, where the code has the largest `usize`: open requests take memory, so
their count stays below it.
-/

namespace Hyperfetch

open Weft

namespace HostBudget

def secs (n : Nat) : Nat := n * 1000000000

/-- How long a learned fact about a host is trusted. -/
def profileTtl : Nat := secs (10 * 60)

/-- Least time between two rises of a cap. -/
def capProbeInterval : Nat := secs 60

/-- How long, and how many, connections a client keeps for reuse. -/
def poolIdle : Nat := secs 90

def poolMaxIdle : Nat := 64

/-- Scheme, host, port and the route requests take. -/
structure HostKey where
  scheme : String
  host : String
  port : Option Nat
  routeId : Nat
  deriving DecidableEq, Repr

/-- What the host is kept under across restarts; `none` for a route's own. -/
def HostKey.origin (key : HostKey) : Option String :=
  let port := match key.port with
    | some port => s!":{port}"
    | none => ""
  if key.routeId = 0 then some s!"{key.scheme}://{key.host}{port}" else none

def contains (text : List Char) (part : String) : Bool := decide (part.toList <:+: text)

/-- The cap of hosts known to throttle concurrent connections. -/
def HostKey.defaultConnectionCap (key : HostKey) : Option Nat :=
  let host := key.host.toList.map Char.toLower
  if contains host "cloudatacdn" || contains host "dood" || contains host "ds2play" ||
      contains host "doodstream" then some 3
  else if contains host "pixeldra" then some 4
  else none

/-- What a host was seen to do. Of a rate only the bits matter here. -/
structure HostProfile where
  acceptsRanges : Option Bool := none
  cappedPerConnection : Option Bool := none
  connectionRate : Option Nat := none
  setupTime : Option Nat := none
  connectionCap : Option Nat := none
  deriving DecidableEq, Repr

/-- A fact and when it was learned. -/
abbrev Fact (α : Type) := Option (α × Nat)

def fresh {α : Type} (fact : Fact α) (now : Nat) : Option α :=
  (fact.filter fun learned => decide (now - learned.2 < profileTtl)).map Prod.fst

def learn {α : Type} (fact : Fact α) (seen : Option α) (now : Nat) : Fact α :=
  match seen with
  | some value => some (value, now)
  | none => fact

structure Facts where
  acceptsRanges : Fact Bool := none
  cappedPerConnection : Fact Bool := none
  connectionRate : Fact Nat := none
  setupTime : Fact Nat := none
  connectionCap : Fact Nat := none

def Facts.profile (facts : Facts) (now : Nat) : HostProfile where
  acceptsRanges := fresh facts.acceptsRanges now
  cappedPerConnection := fresh facts.cappedPerConnection now
  connectionRate := fresh facts.connectionRate now
  setupTime := fresh facts.setupTime now
  connectionCap := fresh facts.connectionCap now

def Facts.record (facts : Facts) (seen : HostProfile) (now : Nat) : Facts where
  acceptsRanges := learn facts.acceptsRanges seen.acceptsRanges now
  cappedPerConnection := learn facts.cappedPerConnection seen.cappedPerConnection now
  connectionRate := learn facts.connectionRate seen.connectionRate now
  setupTime := learn facts.setupTime seen.setupTime now
  connectionCap := learn facts.connectionCap (seen.connectionCap.filter (0 < ·)) now

/-- Nonzero limits, and how many requests are under each. -/
abbrev Limits := Table Nat Nat

def addLimit (limits : Limits) (limit : Nat) : Limits :=
  if 0 < limit then limits.bump limit else limits

def removeLimit (limits : Limits) (limit : Nat) : Limits := limits.unbump limit

structure Entry where
  facts : Facts := {}
  /-- Requests open to the host. -/
  openCount : Nat := 0
  /-- The limits those requests were opened under. -/
  held : Limits := Table.empty
  /-- The limits of requests waiting for a slot. -/
  waiting : Limits := Table.empty
  /-- When the requests whose connections may still be kept ended, oldest first. -/
  idle : List Nat := []
  /-- When the connection cap was last raised. -/
  capRaised : Option Nat := none

/-- Whether nothing would be lost by forgetting the host. -/
def Entry.isIdle (e : Entry) (now : Nat) : Bool :=
  e.openCount == 0 && decide (e.waiting.keys = ∅) && decide (e.facts.profile now = {}) &&
    e.idle.all fun ended => decide (poolIdle ≤ now - ended)

/-- The smallest limit among the requests open or waiting. -/
def Entry.strictest (e : Entry) : WithTop Nat := min e.held.keys.min e.waiting.keys.min

/-- The cap in force: one learned, or else the host's default. -/
def Entry.cap (e : Entry) (key : HostKey) (now : Nat) : Option Nat :=
  (fresh e.facts.connectionCap now).or key.defaultConnectionCap

/-- Requests the host may have open once one under `limit` joins them. -/
def Entry.allowance (e : Entry) (key : HostKey) (limit now : Nat) : WithTop Nat :=
  let own : WithTop Nat := if 0 < limit then limit else ⊤
  let cap : WithTop Nat := match e.cap key now with
    | some cap => cap
    | none => ⊤
  min own (min e.strictest cap)

/-! ## The allowance -/

theorem fresh_eq_some_iff {α : Type} {fact : Fact α} {now : Nat} {v : α} :
    fresh fact now = some v ↔ ∃ learned, fact = some (v, learned) ∧ now - learned < profileTtl := by
  unfold fresh
  cases fact with
  | none => simp
  | some f =>
    obtain ⟨w, learned⟩ := f
    by_cases hfresh : now - learned < profileTtl
    · simp [hfresh]
    · simp [hfresh]

/-- A fact that has run out stays so. -/
theorem fresh_eq_none_of_le {α : Type} {fact : Fact α} {now later : Nat} (h : fresh fact now = none)
    (hle : now ≤ later) : fresh fact later = none := by
  cases hlater : fresh fact later with
  | none => rfl
  | some v =>
    obtain ⟨learned, hfact, hage⟩ := fresh_eq_some_iff.mp hlater
    have hnow : fresh fact now = some v := fresh_eq_some_iff.mpr ⟨learned, hfact, by omega⟩
    rw [h] at hnow
    cases hnow

theorem defaultConnectionCap_pos {key : HostKey} {cap : Nat} (h : key.defaultConnectionCap = some cap) :
    0 < cap := by
  unfold HostKey.defaultConnectionCap at h
  simp only at h
  split at h
  · cases h
    decide
  · split at h
    · cases h
      decide
    · cases h

theorem min_keys_le_iff {limits : Limits} {n : Nat} :
    limits.keys.min ≤ (n : WithTop Nat) ↔ ∃ l ∈ limits.keys, l ≤ n := by
  constructor
  · intro hle
    obtain ⟨l, hl⟩ := WithTop.ne_top_iff_exists.mp (ne_top_of_le_ne_top (WithTop.coe_ne_top) hle)
    rw [← hl] at hle
    exact ⟨l, Finset.mem_of_min hl.symm, WithTop.coe_le_coe.mp hle⟩
  · rintro ⟨l, hl, hle⟩
    exact (Finset.min_le hl).trans (WithTop.coe_le_coe.mpr hle)

/-- The allowance is no more than `n` if one of the limits it is made of is. -/
theorem Entry.allowance_le_iff {e : Entry} {key : HostKey} {limit now n : Nat} :
    e.allowance key limit now ≤ (n : WithTop Nat) ↔
      (0 < limit ∧ limit ≤ n) ∨ (∃ l ∈ e.held.keys, l ≤ n) ∨ (∃ l ∈ e.waiting.keys, l ≤ n) ∨
        ∃ cap, e.cap key now = some cap ∧ cap ≤ n := by
  have hown : (if 0 < limit then (limit : WithTop Nat) else ⊤) ≤ n ↔ 0 < limit ∧ limit ≤ n := by
    by_cases hlimit : 0 < limit
    · rw [if_pos hlimit]
      simp [hlimit]
    · rw [if_neg hlimit]
      simp [hlimit]
  simp only [allowance, strictest, min_le_iff, hown, min_keys_le_iff]
  cases e.cap key now with
  | none => simp
  | some cap =>
    simp only [Nat.cast_le, Option.some.injEq, exists_eq_left', or_assoc]

end HostBudget

end Hyperfetch
