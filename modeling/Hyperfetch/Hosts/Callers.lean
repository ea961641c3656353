import Hyperfetch.Hosts.Accounts
import Hyperfetch.Weft.TSys
import Mathlib.Tactic

/-!
# The callers of the budget (`hosts.rs`)

Any number of requests run `acquire`, each between two of its accesses to the
shared state, while others take slots without waiting, give slots back, tell
what a host did, and record. A thread that is to wake the waiters does so
some time after it let the lock go (`pending`). The instants an operation
reads are of the past, and as stale as may be; the seconds since the epoch
are any.
-/

namespace Hyperfetch

open Weft

namespace HostBudget

/-- What `acquire` relies on of `tokio::sync::Notify`: `notify_waiters` wakes
whoever called `notified` before, and who is woken stays so until it looks. -/
structure Notify where
  State : Type
  Ticket : Type
  new : State
  notified : State → Ticket
  notifyWaiters : State → State
  ready : State → Ticket → Bool
  wakes : ∀ n, ready (notifyWaiters n) (notified n) = true
  stays : ∀ n ticket, ready n ticket = true → ready (notifyWaiters n) ticket = true

/-- Calls of `notify_waiters` counted: a ticket is ready once it is behind. -/
def Notify.counting : Notify where
  State := Nat
  Ticket := Nat
  new := 0
  notified n := n
  notifyWaiters n := n + 1
  ready n ticket := decide (ticket < n)
  wakes n := decide_eq_true (Nat.lt_succ_self n)
  stays _ _ h := decide_eq_true (Nat.lt_succ_of_lt (of_decide_eq_true h))

/-- Where a request is: its limit counts (`entered`), it registered to be
woken, it was refused and sleeps, it has its slot but still counts as waiting,
it has its slot, or it is over. -/
inductive Phase (τ : Type)
  | entered
  | registered (ticket : τ)
  | asleep (ticket : τ)
  | granted
  | holding
  | gone

structure Caller (τ : Type) where
  key : HostKey
  limit : Nat
  phase : Phase τ

/-- A live slot. -/
def Caller.holds {τ : Type} (c : Caller τ) : Bool :=
  match c.phase with
  | .granted | .holding => true
  | _ => false

/-- A wait not over yet. -/
def Caller.waits {τ : Type} (c : Caller τ) : Bool :=
  match c.phase with
  | .entered | .registered _ | .asleep _ | .granted => true
  | _ => false

variable (N : Notify)

structure State where
  hosts : Hosts
  clock : Nat
  freed : N.State
  /-- Threads about to call `notify_waiters`. -/
  pending : Nat
  callers : List (Caller N.Ticket)

def State.start : State N := ⟨{}, 0, N.new, 0, []⟩

inductive Event
  | tick (elapsed : Nat)
  | enter (key : HostKey) (limit now unix : Nat)
  | register (i : Nat)
  | check (i now unix : Nat)
  | settle (i now : Nat)
  | cancel (i now : Nat)
  | tryAcquire (key : HostKey) (limit now unix : Nat)
  | release (i now : Nat)
  | throttled (i now unix : Nat)
  | accepted (i now unix : Nat)
  | record (key : HostKey) (seen : HostProfile) (now unix : Nat)
  | recordBest (key : HostKey) (connections unix : Nat)
  | keepIn (file : String) (read : Option (Table String Kept)) (unix : Nat)
  | save (written : Bool) (unix : Nat)
  | notify

variable {N}

/-- Whether `acquire` is at the top of its loop, or woken to go there. -/
def Caller.looksAgain (c : Caller N.Ticket) (freed : N.State) : Bool :=
  match c.phase with
  | .entered => true
  | .asleep ticket => N.ready freed ticket
  | _ => false

/-- An operation done: what the hosts are then, whether waiters are to be
woken, and the callers. -/
def State.did (s : State N) (hosts : Hosts) (wakes : Bool) (callers : List (Caller N.Ticket)) : State N :=
  { s with hosts, callers, pending := s.pending + wakes.toNat }

/-- One step; `none` where it cannot be taken. -/
def State.step (s : State N) : Event → Option (State N)
  | .tick elapsed => some { s with clock := s.clock + elapsed }
  | .enter key limit now unix =>
    if now ≤ s.clock then
      some (s.did (s.hosts.startWaiting key limit now unix) false (s.callers ++ [⟨key, limit, .entered⟩]))
    else none
  | .register i =>
    match s.callers[i]? with
    | some c =>
      if c.looksAgain s.freed then
        some (s.did s.hosts false (s.callers.set i { c with phase := .registered (N.notified s.freed) }))
      else none
    | none => none
  | .check i now unix =>
    match s.callers[i]? with
    | some ⟨key, limit, .registered ticket⟩ =>
      if now ≤ s.clock then
        let r := s.hosts.tryAcquire key limit now unix
        some (s.did r.1 false
          (s.callers.set i ⟨key, limit, if r.2.isSome then .granted else .asleep ticket⟩))
      else none
    | _ => none
  | .settle i now =>
    match s.callers[i]? with
    | some ⟨key, limit, .granted⟩ =>
      if now ≤ s.clock then
        let r := s.hosts.stopWaiting key limit now
        some (s.did r.1 r.2 (s.callers.set i ⟨key, limit, .holding⟩))
      else none
    | _ => none
  | .cancel i now =>
    match s.callers[i]? with
    | some ⟨key, limit, .asleep _⟩ =>
      if now ≤ s.clock then
        let r := s.hosts.stopWaiting key limit now
        some (s.did r.1 r.2 (s.callers.set i ⟨key, limit, .gone⟩))
      else none
    | _ => none
  | .tryAcquire key limit now unix =>
    if now ≤ s.clock then
      let r := s.hosts.tryAcquire key limit now unix
      some (s.did r.1 false (if r.2.isSome then s.callers ++ [⟨key, limit, .holding⟩] else s.callers))
    else none
  | .release i now =>
    match s.callers[i]? with
    | some ⟨key, limit, .holding⟩ =>
      if now ≤ s.clock then
        some (s.did (s.hosts.release key limit now) true (s.callers.set i ⟨key, limit, .gone⟩))
      else none
    | _ => none
  | .throttled i now unix =>
    match s.callers[i]? with
    | some ⟨key, _, .holding⟩ =>
      if now ≤ s.clock then some (s.did (s.hosts.throttled key now unix) false s.callers) else none
    | _ => none
  | .accepted i now unix =>
    match s.callers[i]? with
    | some ⟨key, _, .holding⟩ =>
      if now ≤ s.clock then
        let r := s.hosts.accepted key now unix
        some (s.did r.1 r.2 s.callers)
      else none
    | _ => none
  | .record key seen now unix =>
    if now ≤ s.clock then
      let r := s.hosts.record key seen now unix
      some (s.did r.1 r.2 s.callers)
    else none
  | .recordBest key connections unix =>
    some (s.did (s.hosts.keep key unix fun kept =>
      { kept with connections := (some connections).filter (0 < ·) }) false s.callers)
  | .keepIn file read unix => some (s.did (s.hosts.keepIn file read unix) false s.callers)
  | .save written unix => some (s.did (s.hosts.save written unix).1 false s.callers)
  | .notify =>
    if 0 < s.pending then
      some { s with pending := s.pending - 1, freed := N.notifyWaiters s.freed }
    else none

variable (N)

def budget : Machine (State N) Event where
  init s := s = State.start N
  step := State.step

variable {N}

/-! ## The accounts of a run -/

/-- The limits of a host's live slots. -/
def slotsOf {τ : Type} (callers : Multiset (Caller τ)) (key : HostKey) : Multiset Nat :=
  (callers.filter fun c => c.key = key ∧ c.holds = true).map Caller.limit

/-- The limits of the waits for a host. -/
def waitsOf {τ : Type} (callers : Multiset (Caller τ)) (key : HostKey) : Multiset Nat :=
  (callers.filter fun c => c.key = key ∧ c.waits = true).map Caller.limit

/-- Every host's entry counts exactly the slots and waits of the callers. -/
def State.Accounted (s : State N) : Prop :=
  let callers : Multiset (Caller N.Ticket) := s.callers
  Accounts s.hosts (slotsOf callers) (waitsOf callers)

theorem slotsOf_cons {τ : Type} (c : Caller τ) (rest : Multiset (Caller τ)) :
    slotsOf (c ::ₘ rest) = if c.holds then book (slotsOf rest) c.key c.limit else slotsOf rest := by
  funext key
  unfold slotsOf
  by_cases hholds : c.holds = true
  · rw [if_pos hholds]
    by_cases hkey : key = c.key
    · rw [hkey, book_self, Multiset.filter_cons_of_pos _ ⟨rfl, hholds⟩, Multiset.map_cons]
    · rw [book_of_ne hkey, Multiset.filter_cons_of_neg _ fun h => hkey h.1.symm]
  · rw [if_neg hholds, Multiset.filter_cons_of_neg _ fun h => hholds h.2]

theorem waitsOf_cons {τ : Type} (c : Caller τ) (rest : Multiset (Caller τ)) :
    waitsOf (c ::ₘ rest) = if c.waits then book (waitsOf rest) c.key c.limit else waitsOf rest := by
  funext key
  unfold waitsOf
  by_cases hwaits : c.waits = true
  · rw [if_pos hwaits]
    by_cases hkey : key = c.key
    · rw [hkey, book_self, Multiset.filter_cons_of_pos _ ⟨rfl, hwaits⟩, Multiset.map_cons]
    · rw [book_of_ne hkey, Multiset.filter_cons_of_neg _ fun h => hkey h.1.symm]
  · rw [if_neg hwaits, Multiset.filter_cons_of_neg _ fun h => hwaits h.2]

/-- The other callers, whatever becomes of one. -/
theorem exists_others {α : Type} {xs : List α} {i : Nat} {x : α} (hx : xs[i]? = some x) :
    ∃ rest : Multiset α, (xs : Multiset α) = x ::ₘ rest ∧ ∀ y, ((xs.set i y : List α) : Multiset α) = y ::ₘ rest := by
  obtain ⟨hi, rfl⟩ := List.getElem?_eq_some_iff.mp hx
  refine ⟨xs.eraseIdx i, ?_, fun y => ?_⟩
  · exact Multiset.coe_eq_coe.mpr (List.getElem_cons_eraseIdx_perm hi).symm
  · exact Multiset.coe_eq_coe.mpr (List.set_perm_cons_eraseIdx hi y)

theorem coe_snoc {α : Type} (xs : List α) (x : α) : ((xs ++ [x] : List α) : Multiset α) = x ::ₘ xs :=
  Multiset.coe_eq_coe.mpr (List.perm_append_singleton x xs)

/-- A step keeps the accounts. -/
theorem State.Accounted.step {s s' : State N} {e : Event} (h : s.Accounted) (hstep : s.step e = some s') :
    s'.Accounted := by
  unfold Accounted at h ⊢
  cases e with
  | tick elapsed =>
    cases hstep
    exact h
  | enter key limit now unix =>
    simp only [State.step] at hstep
    split at hstep
    · cases hstep
      simp only [did, coe_snoc, slotsOf_cons, waitsOf_cons]
      exact h.startWaiting
    · cases hstep
  | register i =>
    simp only [State.step] at hstep
    split at hstep
    · rename_i c hc
      split at hstep
      · rename_i hlooks
        cases hstep
        obtain ⟨rest, hrest, hset⟩ := exists_others hc
        obtain ⟨key, limit, phase⟩ := c
        simp only [did, hset]
        rw [hrest] at h
        simp only [slotsOf_cons, waitsOf_cons] at h ⊢
        -- before and after, it waits without a slot
        cases phase with
        | entered => exact h
        | asleep ticket => exact h
        | registered | granted | holding | gone => cases hlooks
      · cases hstep
    · cases hstep
  | check i now unix =>
    simp only [State.step] at hstep
    split at hstep
    · rename_i key limit ticket hc
      split at hstep
      · cases hstep
        obtain ⟨rest, hrest, hset⟩ := exists_others hc
        rw [hrest] at h
        simp only [did, hset]
        simp only [slotsOf_cons, waitsOf_cons] at h ⊢
        cases hslot : (s.hosts.tryAcquire key limit now unix).2 with
        | none => exact h.tryAcquire_none hslot
        | some slot => exact h.tryAcquire_some hslot
      · cases hstep
    · cases hstep
  | settle i now =>
    simp only [State.step] at hstep
    split at hstep
    · rename_i key limit hc
      split at hstep
      · cases hstep
        obtain ⟨rest, hrest, hset⟩ := exists_others hc
        rw [hrest] at h
        simp only [did, hset]
        simp only [slotsOf_cons, waitsOf_cons] at h ⊢
        exact h.stopWaiting
      · cases hstep
    · cases hstep
  | cancel i now =>
    simp only [State.step] at hstep
    split at hstep
    · rename_i key limit ticket hc
      split at hstep
      · cases hstep
        obtain ⟨rest, hrest, hset⟩ := exists_others hc
        rw [hrest] at h
        simp only [did, hset]
        simp only [slotsOf_cons, waitsOf_cons] at h ⊢
        exact h.stopWaiting
      · cases hstep
    · cases hstep
  | tryAcquire key limit now unix =>
    simp only [State.step] at hstep
    split at hstep
    · cases hstep
      cases hslot : (s.hosts.tryAcquire key limit now unix).2 with
      | none => exact h.tryAcquire_none hslot
      | some slot =>
        simp only [did, Option.isSome_some, if_true, coe_snoc, slotsOf_cons, waitsOf_cons]
        exact h.tryAcquire_some hslot
    · cases hstep
  | release i now =>
    simp only [State.step] at hstep
    split at hstep
    · rename_i key limit hc
      split at hstep
      · cases hstep
        obtain ⟨rest, hrest, hset⟩ := exists_others hc
        rw [hrest] at h
        simp only [did, hset]
        simp only [slotsOf_cons, waitsOf_cons] at h ⊢
        exact h.release
      · cases hstep
    · cases hstep
  | throttled i now unix =>
    simp only [State.step] at hstep
    split at hstep
    · split at hstep
      · cases hstep
        exact h.throttled
      · cases hstep
    · cases hstep
  | accepted i now unix =>
    simp only [State.step] at hstep
    split at hstep
    · split at hstep
      · cases hstep
        exact h.accepted
      · cases hstep
    · cases hstep
  | record key seen now unix =>
    simp only [State.step] at hstep
    split at hstep
    · cases hstep
      exact h.record seen
    · cases hstep
  | recordBest key connections unix =>
    cases hstep
    exact h.congr (Hosts.entries_keep _ _ _ _)
  | keepIn file read unix =>
    cases hstep
    exact h.congr (Hosts.entries_keepIn _ _ _ _)
  | save written unix =>
    cases hstep
    exact h.congr (Hosts.entries_save _ _ _)
  | notify =>
    simp only [State.step] at hstep
    split at hstep
    · cases hstep
      exact h
    · cases hstep

theorem accounted_start : (State.start N).Accounted :=
  fun _ => ⟨rfl, Table.tallies_empty, Table.tallies_empty⟩

theorem reachable_start (N : Notify) : (budget N).toTSys.Reachable (State.start N) := .init rfl

theorem accounted_invariant : (budget N).toTSys.Invariant State.Accounted :=
  TSys.Inductive.invariant
    { init := fun s hs => by cases hs; exact accounted_start
      step := fun s s' h ⟨e, hstep⟩ => h.step hstep }

end HostBudget

end Hyperfetch
