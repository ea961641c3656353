import Hyperfetch.Hosts.Entry
import Mathlib.Tactic

/-!
# The budget of every host (`hosts.rs`)

What each operation does under the lock of `entries`; that of `kept` is only
taken within it. Waking the waiters comes after both are let go, so an
operation that ends in it returns whether it does. Each takes the instant and
the seconds since the epoch it read, which may be stale by the time it runs.
-/

namespace Hyperfetch

open Weft

namespace HostBudget

/-- Hosts remembered before those with nothing fresh to tell are dropped. -/
def keepHosts : Nat := 256

/-- How many seconds what is kept of a host across restarts lasts. -/
def keptFor : Nat := 30 * 24 * 60 * 60

/-- Hosts kept across restarts. -/
def keepKept : Nat := 300

/-- What is kept of a host across restarts, and when it was learned. -/
structure Kept where
  connections : Option Nat := none
  cap : Option Nat := none
  at_ : Nat := 0
  deriving DecidableEq, Repr

structure Memory where
  /-- By `HostKey.origin`. -/
  hosts : Table String Kept := Table.empty
  file : Option String := none
  changed : Bool := false

/-- Drops what is older than `keptFor` or tells nothing, and past `keepKept`
what was learned first. -/
def Memory.prune (m : Memory) (now : Nat) : Memory :=
  let hosts := m.hosts.filter fun _ kept =>
    (kept.connections.isSome || kept.cap.isSome) && decide (now - kept.at_ < keptFor)
  if keepKept < hosts.keys.card then
    let ages := (hosts.keys.val.filterMap fun origin => (hosts.get origin).map Kept.at_).sort (· ≥ ·)
    let oldestKept := ages.getD (keepKept - 1) 0
    { m with hosts := hosts.filter fun _ kept => decide (oldestKept ≤ kept.at_) }
  else { m with hosts }

structure Hosts where
  entries : Table HostKey Entry := Table.empty
  kept : Memory := {}

/-- One request open to a host, counted against its budget until dropped. -/
structure HostSlot where
  key : HostKey
  limit : Nat
  opensConnection : Bool
  deriving DecidableEq, Repr

namespace Hosts

/-- Starts from what `file` holds, if it can be read. -/
def keepIn (h : Hosts) (file : String) (read : Option (Table String Kept)) (unix : Nat) : Hosts :=
  let hosts := h.kept.hosts.orInsert (read.getD Table.empty)
  { h with kept := { Memory.prune { h.kept with hosts } unix with file := some file } }

/-- Writes what is kept to its file, if it changed: what is written, and what
is kept then. -/
def save (h : Hosts) (written : Bool) (unix : Nat) : Hosts × Option (String × Table String Kept) :=
  match h.kept.file.filter fun _ => h.kept.changed with
  | none => (h, none)
  | some file =>
    let memory := h.kept.prune unix
    ({ h with kept := { memory with changed := !written } }, some (file, memory.hosts))

/-- What is kept of `key`'s host, if anything and not too old. -/
def keptOf (h : Hosts) (key : HostKey) (unix : Nat) : Option Kept :=
  (key.origin.bind h.kept.hosts.get).filter fun kept => decide (unix - kept.at_ < keptFor)

/-- Changes what is kept of `key`'s host. -/
def keep (h : Hosts) (key : HostKey) (unix : Nat) (change : Kept → Kept) : Hosts :=
  match key.origin with
  | none => h
  | some origin =>
    let hosts := h.kept.hosts.alter origin fun kept => some { change (kept.getD {}) with at_ := unix }
    { h with kept := { h.kept with hosts, changed := true } }

/-- What a new entry starts from: the cap kept for the host, as if just
learned. -/
def newEntry (h : Hosts) (key : HostKey) (now unix : Nat) : Entry where
  facts := { connectionCap := ((h.keptOf key unix).bind Kept.cap).map fun cap => (cap, now) }

/-- `key`'s entry, a new one if it has none. -/
def entry (h : Hosts) (key : HostKey) (now unix : Nat) : Entry :=
  (h.entries.get key).getD (h.newEntry key now unix)

def put (h : Hosts) (key : HostKey) (e : Entry) : Hosts := { h with entries := h.entries.set key e }

/-- Drops the hosts with nothing to tell once there are many. -/
def forgetIdle (h : Hosts) (now : Nat) : Hosts :=
  if keepHosts < h.entries.keys.card then
    { h with entries := h.entries.filter fun _ e => !e.isIdle now }
  else h

/-- Records what a host was seen to do; whether waiters are woken. -/
def record (h : Hosts) (key : HostKey) (seen : HostProfile) (now unix : Nat) : Hosts × Bool :=
  let e := h.entry key now unix
  ((h.put key { e with facts := e.facts.record seen now }).forgetIdle now, seen.connectionCap.isSome)

/-- An entry with one more request open under `limit`, which takes the latest
connection still kept; whether it opens one. -/
def taken (e : Entry) (limit now : Nat) : Entry × Bool :=
  let idle := e.idle.filter fun ended => decide (now - ended < poolIdle)
  ({ e with openCount := e.openCount + 1, held := addLimit e.held limit, idle := idle.dropLast }, idle.isEmpty)

/-- A slot for a request under `limit`, if one is free. -/
def tryAcquire (h : Hosts) (key : HostKey) (limit now unix : Nat) : Hosts × Option HostSlot :=
  let e := h.entry key now unix
  if e.allowance key limit now ≤ e.openCount then (h.put key e, none)
  else (h.put key (taken e limit now).1, some ⟨key, limit, (taken e limit now).2⟩)

/-- What `acquire` does first: its limit counts from now on. -/
def startWaiting (h : Hosts) (key : HostKey) (limit now unix : Nat) : Hosts :=
  let e := h.entry key now unix
  h.put key { e with waiting := addLimit e.waiting limit }

/-- A wait ends; whether the others' allowance may have grown. -/
def stopWaiting (h : Hosts) (key : HostKey) (limit now : Nat) : Hosts × Bool :=
  match h.entries.get key with
  | none => (h.forgetIdle now, false)
  | some e =>
    let after := { e with waiting := removeLimit e.waiting limit }
    ((h.put key after).forgetIdle now, decide (after.strictest ≠ e.strictest))

/-- A slot is given back. -/
def release (h : Hosts) (key : HostKey) (limit now : Nat) : Hosts :=
  match h.entries.get key with
  | none => h.forgetIdle now
  | some e =>
    let idle := if poolMaxIdle ≤ e.idle.length then e.idle.tail else e.idle
    (h.put key { e with
      openCount := e.openCount - 1, held := removeLimit e.held limit, idle := idle ++ [now] }).forgetIdle now

/-- The host refused a request: with others open, it serves no more than
those. -/
def throttled (h : Hosts) (key : HostKey) (now unix : Nat) : Hosts :=
  match h.entries.get key with
  | none => h
  | some e =>
    -- the refused request still holds its slot
    let others := e.openCount - 1
    if 0 < others then
      (h.put key { e with facts := { e.facts with connectionCap := some (others, now) } }).keep key unix
        fun kept => { kept with cap := some others }
    else h

/-- The host accepted a request: at the cap it was seen to enforce, it is
offered one more. Whether the cap rose. -/
def accepted (h : Hosts) (key : HostKey) (now unix : Nat) : Hosts × Bool :=
  match h.entries.get key with
  | none => (h, false)
  | some e =>
    match e.facts.connectionCap, fresh e.facts.connectionCap now with
    | some (cap, learned), some _ =>
      if cap ≤ e.openCount then
        let since := e.capRaised.elim learned (max · learned)
        if now - since < capProbeInterval then (h, false)
        else
          -- the cap keeps the time it was learned at, so it still expires
          ((h.put key { e with
              facts := { e.facts with connectionCap := some (cap + 1, learned) }, capRaised := some now }).keep
            key unix fun kept => { kept with cap := some (cap + 1) }, true)
      else (h, false)
    | _, some _ => (h, false)
    | _, none =>
      -- serving more than a cap kept from before, the host has none so low any more
      if ((h.keptOf key unix).bind Kept.cap).any (· < e.openCount) then
        (h.keep key unix fun kept => { kept with cap := none }, false)
      else (h, false)

/-! ## What operations leave alone -/

theorem get_put (h : Hosts) (key j : HostKey) (e : Entry) :
    (h.put key e).entries.get j = if j = key then some e else h.entries.get j := Table.get_set _ _ _ _

@[simp] theorem entries_keep (h : Hosts) (key : HostKey) (unix : Nat) (change : Kept → Kept) :
    (h.keep key unix change).entries = h.entries := by
  unfold keep
  split <;> rfl

@[simp] theorem entries_keepIn (h : Hosts) (file : String) (read : Option (Table String Kept)) (unix : Nat) :
    (h.keepIn file read unix).entries = h.entries := rfl

@[simp] theorem entries_save (h : Hosts) (written : Bool) (unix : Nat) :
    (h.save written unix).1.entries = h.entries := by
  unfold save
  split <;> rfl

/-- Forgetting leaves an entry as it is, or it was idle. -/
theorem get_forgetIdle (h : Hosts) (now : Nat) (j : HostKey) :
    (h.forgetIdle now).entries.get j = h.entries.get j ∨
      ∃ e, h.entries.get j = some e ∧ e.isIdle now = true ∧ (h.forgetIdle now).entries.get j = none := by
  unfold forgetIdle
  split
  · cases hj : h.entries.get j with
    | none => exact .inl (by rw [Table.get_filter, hj]; rfl)
    | some e =>
      cases hidle : e.isIdle now with
      | false => exact .inl (by rw [Table.get_filter, hj]; simp [hidle])
      | true => exact .inr ⟨e, rfl, hidle, by rw [Table.get_filter, hj]; simp [hidle]⟩
  · exact .inl rfl

/-- What is left after forgetting was there before. -/
theorem get_of_forgetIdle {h : Hosts} {now : Nat} {j : HostKey} {e : Entry}
    (he : (h.forgetIdle now).entries.get j = some e) : h.entries.get j = some e := by
  rcases h.get_forgetIdle now j with hsame | ⟨_, _, _, hnone⟩
  · rw [← hsame, he]
  · rw [he] at hnone
    cases hnone

/-! ## The caps a run comes to know -/

theorem get_throttled (h : Hosts) (key : HostKey) (now unix : Nat) (j : HostKey) :
    (h.throttled key now unix).entries.get j = h.entries.get j ∨
      ∃ e, j = key ∧ h.entries.get key = some e ∧ 0 < e.openCount - 1 ∧
        (h.throttled key now unix).entries.get j =
          some { e with facts := { e.facts with connectionCap := some (e.openCount - 1, now) } } := by
  unfold throttled
  cases he : h.entries.get key with
  | none => exact .inl rfl
  | some e =>
    by_cases hothers : 0 < e.openCount - 1
    · simp only [if_pos hothers, entries_keep, get_put]
      by_cases hj : j = key
      · exact .inr ⟨e, hj, rfl, hothers, if_pos hj⟩
      · exact .inl (if_neg hj)
    · exact .inl (by simp only [if_neg hothers])

theorem get_accepted (h : Hosts) (key : HostKey) (now unix : Nat) (j : HostKey) :
    (h.accepted key now unix).1.entries.get j = h.entries.get j ∨
      ∃ e cap learned, j = key ∧ h.entries.get key = some e ∧ (h.accepted key now unix).2 = true ∧
        (h.accepted key now unix).1.entries.get j = some { e with
          facts := { e.facts with connectionCap := some (cap + 1, learned) }, capRaised := some now } := by
  unfold accepted
  cases he : h.entries.get key with
  | none => exact .inl rfl
  | some e =>
    simp only
    split
    · rename_i cap learned _ _ _
      by_cases hcap : cap ≤ e.openCount
      · rw [if_pos hcap]
        split
        · exact .inl rfl
        · rw [entries_keep, get_put]
          by_cases hj : j = key
          · exact .inr ⟨e, cap, learned, hj, rfl, rfl, if_pos hj⟩
          · exact .inl (if_neg hj)
      · rw [if_neg hcap]
        exact .inl rfl
    · exact .inl rfl
    · split
      · exact .inl (by rw [entries_keep])
      · exact .inl rfl

end Hosts

end HostBudget

end Hyperfetch
