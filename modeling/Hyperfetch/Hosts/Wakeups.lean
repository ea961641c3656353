import Hyperfetch.Hosts.Grants
import Mathlib.Tactic

/-!
# No wakeup is lost (`hosts.rs`)

A request sleeps with a ticket it took before it was refused. Whatever makes
the budget of a host larger ends in `notify_waiters`, and what does not is
`Quiet`: a request refused at some instant still is at some instant, or it
would be granted by now already, only because time passed. So a sleeper that
nobody is about to wake could at most be granted for that reason.
-/

namespace Hyperfetch

open Weft

namespace HostBudget

variable {N : Notify}

/-- No request under `limit` fits in at that instant. -/
def Entry.Full (e : Entry) (key : HostKey) (limit now : Nat) : Prop := e.allowance key limit now ≤ e.openCount

def Hosts.Refuses (h : Hosts) (key : HostKey) (limit now : Nat) : Prop :=
  ∃ e, h.entries.get key = some e ∧ e.Full key limit now

def Hosts.Grants (h : Hosts) (key : HostKey) (limit now : Nat) : Prop :=
  ∃ e, h.entries.get key = some e ∧ ¬ e.Full key limit now

theorem Hosts.Refuses.tryAcquire {h : Hosts} {key : HostKey} {limit now : Nat} (hr : h.Refuses key limit now)
    (unix : Nat) : (h.tryAcquire key limit now unix).2 = none := by
  obtain ⟨e, he, hfull⟩ := hr
  rw [Hosts.tryAcquire, entry, he]
  exact congrArg Prod.snd (if_pos hfull)

theorem Hosts.Grants.tryAcquire {h : Hosts} {key : HostKey} {limit now : Nat} (hg : h.Grants key limit now)
    (unix : Nat) : (h.tryAcquire key limit now unix).2.isSome = true := by
  obtain ⟨e, he, hfree⟩ := hg
  rw [Hosts.tryAcquire, entry, he]
  exact congrArg (fun r => Option.isSome (Prod.snd r)) (if_neg hfree)

/-- What refuses a request is left in the hosts. -/
theorem Hosts.refuses_of_tryAcquire {h : Hosts} {key : HostKey} {limit now unix : Nat}
    (hnone : (h.tryAcquire key limit now unix).2 = none) :
    (h.tryAcquire key limit now unix).1.Refuses key limit now := by
  unfold Hosts.tryAcquire at hnone ⊢
  simp only at hnone ⊢
  split at hnone
  · rename_i hfull
    rw [if_pos hfull]
    exact ⟨_, (get_put _ _ _ _).trans (if_pos rfl), hfull⟩
  · cases hnone

/-! ## What keeps a host full -/

/-- More requests and limits do. -/
theorem Entry.Full.mono {e e' : Entry} {key : HostKey} {limit now : Nat} (h : e.Full key limit now)
    (hopen : e.openCount ≤ e'.openCount) (hheld : e.held.keys ⊆ e'.held.keys)
    (hwaiting : e.waiting.keys ⊆ e'.waiting.keys) (hcap : e'.facts.connectionCap = e.facts.connectionCap) :
    e'.Full key limit now := by
  unfold Full at h ⊢
  rw [allowance_le_iff] at h ⊢
  rcases h with ⟨hpos, hle⟩ | ⟨l, hl, hle⟩ | ⟨l, hl, hle⟩ | ⟨cap, hforce, hle⟩
  · exact .inl ⟨hpos, hle.trans hopen⟩
  · exact .inr (.inl ⟨l, hheld hl, hle.trans hopen⟩)
  · exact .inr (.inr (.inl ⟨l, hwaiting hl, hle.trans hopen⟩))
  · refine .inr (.inr (.inr ⟨cap, ?_, hle.trans hopen⟩))
    rw [Entry.cap, hcap]
    exact hforce

/-- It only depends on the strictest limit, the cap and how many are open. -/
theorem Entry.full_congr {e e' : Entry} (hopen : e'.openCount = e.openCount) (hstrict : e'.strictest = e.strictest)
    (hcap : e'.facts.connectionCap = e.facts.connectionCap) (key : HostKey) (limit now : Nat) :
    e'.Full key limit now ↔ e.Full key limit now := by
  unfold Full allowance cap
  rw [hopen, hstrict, hcap]

/-- An idle host has room from then on. -/
theorem Entry.not_full_of_idle {e : Entry} {now clock : Nat} (hheld : ∀ l ∈ e.held.keys, 0 < l)
    (hidle : e.isIdle now = true) (hle : now ≤ clock) (key : HostKey) (limit : Nat) : ¬ e.Full key limit clock := by
  simp only [isIdle, Bool.and_eq_true, beq_iff_eq, decide_eq_true_eq] at hidle
  obtain ⟨⟨⟨hopen, hwaiting⟩, hprofile⟩, _⟩ := hidle
  have hcap : fresh e.facts.connectionCap clock = none :=
    fresh_eq_none_of_le (congrArg HostProfile.connectionCap hprofile) hle
  unfold Full
  rw [allowance_le_iff, hopen]
  rintro (⟨hpos, hzero⟩ | ⟨l, hl, hzero⟩ | ⟨l, hl, _⟩ | ⟨cap, hforce, hzero⟩)
  · omega
  · have := hheld l hl
    omega
  · rw [hwaiting] at hl
    exact Finset.notMem_empty _ hl
  · rw [Entry.cap, hcap] at hforce
    have := defaultConnectionCap_pos hforce
    omega

theorem subset_keys_addLimit (limits : Limits) (limit : Nat) : limits.keys ⊆ (addLimit limits limit).keys := by
  unfold addLimit
  split
  · exact Finset.subset_insert _ _
  · exact Finset.Subset.refl _

/-! ## Operations nobody is told of -/

/-- What was refused still is, at some instant up to `clock`, or `h` would
grant it by then. -/
def Quiet (clock : Nat) (h h' : Hosts) : Prop :=
  ∀ key limit now, now ≤ clock → h.Refuses key limit now →
    (∃ now' ≤ clock, h'.Refuses key limit now') ∨ h.Grants key limit clock

namespace Quiet

variable {clock : Nat} {h : Hosts} {key : HostKey} {limit now unix : Nat}

theorem of_entries {h' : Hosts} (hentries : h'.entries = h.entries) : Quiet clock h h' := by
  intro j l t ht hr
  exact .inl ⟨t, ht, by rw [Hosts.Refuses, hentries]; exact hr⟩

theorem put {e' : Entry} (hfull : ∀ e, h.entries.get key = some e → ∀ limit now, now ≤ clock →
    e.Full key limit now → ∃ now' ≤ clock, e'.Full key limit now') : Quiet clock h (h.put key e') := by
  rintro j l t ht ⟨e, he, hr⟩
  left
  by_cases hj : j = key
  · subst hj
    obtain ⟨t', ht', hr'⟩ := hfull e he l t ht hr
    exact ⟨t', ht', e', (h.get_put j j e').trans (if_pos rfl), hr'⟩
  · exact ⟨t, ht, e, by rw [Hosts.get_put, if_neg hj]; exact he, hr⟩

/-- An entry changes that leaves as much room, and idle hosts are forgotten. -/
theorem put_forgetIdle {e' : Entry} (hheld : ∀ j, ∀ l ∈ (h.view j).held.keys, 0 < l)
    (hsame : ∀ e, h.entries.get key = some e → e'.held = e.held ∧
      ∀ limit now, e'.Full key limit now ↔ e.Full key limit now)
    (hnow : now ≤ clock) : Quiet clock h ((h.put key e').forgetIdle now) := by
  rintro j l t ht ⟨e, he, hr⟩
  have hput : ∃ e₁, (h.put key e').entries.get j = some e₁ ∧ e₁.held = e.held ∧
      ∀ limit now, e₁.Full j limit now ↔ e.Full j limit now := by
    rw [Hosts.get_put]
    by_cases hj : j = key
    · subst hj
      exact ⟨e', if_pos rfl, hsame e he⟩
    · exact ⟨e, (if_neg hj).trans he, rfl, fun _ _ => Iff.rfl⟩
  obtain ⟨e₁, he₁, hheld₁, hfull₁⟩ := hput
  rcases (h.put key e').get_forgetIdle now j with hkept | ⟨e₂, he₂, hidle, _⟩
  · exact .inl ⟨t, ht, e₁, hkept.trans he₁, (hfull₁ l t).mpr hr⟩
  · rw [he₁] at he₂
    cases he₂
    refine .inr ⟨e, he, fun hclock => ?_⟩
    refine Entry.not_full_of_idle ?_ hidle hnow j l ((hfull₁ l clock).mpr hclock)
    rw [hheld₁, ← Hosts.view_of_get he]
    exact hheld j

theorem forgetIdle (hheld : ∀ j, ∀ l ∈ (h.view j).held.keys, 0 < l) (hnow : now ≤ clock) :
    Quiet clock h (h.forgetIdle now) := by
  rintro j l t ht ⟨e, he, hr⟩
  rcases h.get_forgetIdle now j with hkept | ⟨e₂, he₂, hidle, _⟩
  · exact .inl ⟨t, ht, e, hkept.trans he, hr⟩
  · rw [he] at he₂
    cases he₂
    exact .inr ⟨e, he, Entry.not_full_of_idle (Hosts.view_of_get he ▸ hheld j) hidle hnow j l⟩

theorem tryAcquire : Quiet clock h (h.tryAcquire key limit now unix).1 := by
  unfold Hosts.tryAcquire
  simp only
  have hentry : ∀ e, h.entries.get key = some e → h.entry key now unix = e := fun e he => by
    rw [Hosts.entry, he, Option.getD_some]
  split
  · refine put fun e he l t ht hr => ⟨t, ht, ?_⟩
    rw [hentry e he]
    exact hr
  · refine put fun e he l t ht hr => ⟨t, ht, ?_⟩
    rw [hentry e he]
    exact hr.mono (Nat.le_succ _) (subset_keys_addLimit _ _) (Finset.Subset.refl _) rfl

theorem startWaiting : Quiet clock h (h.startWaiting key limit now unix) := by
  refine put fun e he l t ht hr => ⟨t, ht, ?_⟩
  rw [Hosts.entry, he, Option.getD_some]
  exact hr.mono le_rfl (Finset.Subset.refl _) (subset_keys_addLimit _ _) rfl

/-- A wait that ends without the strictest limit going with it. -/
theorem stopWaiting (hheld : ∀ j, ∀ l ∈ (h.view j).held.keys, 0 < l) (hnow : now ≤ clock)
    (hquiet : (h.stopWaiting key limit now).2 = false) : Quiet clock h (h.stopWaiting key limit now).1 := by
  unfold Hosts.stopWaiting at hquiet ⊢
  cases he : h.entries.get key with
  | none => exact forgetIdle hheld hnow
  | some e =>
    rw [he] at hquiet
    have hstrict := not_not.mp (of_decide_eq_false hquiet)
    refine put_forgetIdle hheld (fun e' he' => ?_) hnow
    cases he.symm.trans he'
    refine ⟨rfl, fun l t => ?_⟩
    apply Entry.full_congr
    · rfl
    · exact hstrict
    · rfl

/-- A cap learned now holds those open to no more than they are. -/
theorem throttled (hnow : now ≤ clock) : Quiet clock h (h.throttled key now unix) := by
  rintro j l t ht ⟨e, he, hr⟩
  left
  rcases h.get_throttled key now unix j with hsame | ⟨e₁, _, _, _, hnew⟩
  · exact ⟨t, ht, e, hsame.trans he, hr⟩
  · refine ⟨now, hnow, _, hnew, ?_⟩
    unfold Entry.Full
    rw [Entry.allowance_le_iff]
    refine .inr (.inr (.inr ⟨e₁.openCount - 1, ?_, Nat.sub_le _ _⟩))
    have hfresh : fresh (some (e₁.openCount - 1, now)) now = some (e₁.openCount - 1) :=
      fresh_eq_some_iff.mpr ⟨now, rfl, by rw [Nat.sub_self]; decide⟩
    rw [Entry.cap, hfresh]
    rfl

theorem accepted (hquiet : (h.accepted key now unix).2 = false) :
    Quiet clock h (h.accepted key now unix).1 := by
  rintro j l t ht ⟨e, he, hr⟩
  rcases h.get_accepted key now unix j with hsame | ⟨_, _, _, _, _, hraised, _⟩
  · exact .inl ⟨t, ht, e, hsame.trans he, hr⟩
  · rw [hquiet] at hraised
    cases hraised

/-- Facts other than the cap. -/
theorem record (hheld : ∀ j, ∀ l ∈ (h.view j).held.keys, 0 < l) (hnow : now ≤ clock) {seen : HostProfile}
    (hquiet : (h.record key seen now unix).2 = false) : Quiet clock h (h.record key seen now unix).1 := by
  have hseen : seen.connectionCap = none := Option.isSome_eq_false_iff.mp hquiet |> Option.isNone_iff_eq_none.mp
  refine put_forgetIdle hheld (fun e he => ?_) hnow
  have hentry : h.entry key now unix = e := by rw [Hosts.entry, he, Option.getD_some]
  rw [hentry]
  refine ⟨rfl, fun l t => ?_⟩
  apply Entry.full_congr
  · rfl
  · rfl
  · show learn e.facts.connectionCap (seen.connectionCap.filter _) now = _
    rw [hseen]
    rfl

end Quiet

/-! ## Sleepers -/

def Phase.ticket {τ : Type} : Phase τ → Option τ
  | .registered ticket | .asleep ticket => some ticket
  | _ => none

/-- Every ticket in use is ready, or was taken since waiters were last woken. -/
def State.Ticketed (s : State N) : Prop :=
  ∀ c ∈ s.callers, ∀ ticket, c.phase.ticket = some ticket →
    N.ready s.freed ticket = true ∨ ticket = N.notified s.freed

/-- Caller `i` sleeps, was not woken, and nobody is about to wake it. -/
structure State.Sleeps (s : State N) (i : Nat) (c : Caller N.Ticket) (ticket : N.Ticket) : Prop where
  caller : s.callers[i]? = some c
  phase : c.phase = .asleep ticket
  unready : N.ready s.freed ticket = false
  pending : s.pending = 0

theorem getElem?_set_cases {α : Type} {xs : List α} {i j : Nat} {x y : α}
    (h : (xs.set j y)[i]? = some x) : x = y ∨ xs[i]? = some x := by
  rw [List.getElem?_set] at h
  split at h
  · split at h
    · cases h
      exact .inl rfl
    · cases h
  · exact .inr h

theorem getElem?_snoc_cases {α : Type} {xs : List α} {i : Nat} {x y : α}
    (h : (xs ++ [y])[i]? = some x) : x = y ∨ xs[i]? = some x := by
  rcases List.mem_append.mp (List.mem_of_getElem? h) with _ | hy
  · rw [List.getElem?_append] at h
    split at h
    · exact .inr h
    · left
      exact List.mem_singleton.mp (List.mem_of_getElem? h)
  · exact .inl (List.mem_singleton.mp hy)

/-- What an operation made of a caller: one that does not sleep, one that
registered, or one refused by what the operation left. -/
inductive Moved (s : State N) (hosts : Hosts) (c : Caller N.Ticket) : Prop
  | awake (hawake : c.phase.ticket = none)
  | registered (hphase : c.phase = .registered (N.notified s.freed))
  | refused {ticket : N.Ticket} {now : Nat} (hphase : c.phase = .asleep ticket)
      (hbefore : ∃ c₀ ∈ s.callers, c₀.phase = .registered ticket) (hnow : now ≤ s.clock)
      (hrefuses : hosts.Refuses c.key c.limit now)

/-- What an operation does that is not waking the waiters. -/
structure Did (s s' : State N) where
  hosts : Hosts
  wakes : Bool
  callers : List (Caller N.Ticket)
  state : s' = s.did hosts wakes callers
  caller : ∀ {i : Nat} {c}, callers[i]? = some c → s.callers[i]? = some c ∨ Moved s hosts c
  quiet : wakes = false → Quiet s.clock s.hosts hosts

theorem State.step_did {s s' : State N} {e : Event} (h : s.Accounted) (hstep : s.step e = some s') :
    (∃ elapsed, s' = { s with clock := s.clock + elapsed }) ∨
      (0 < s.pending ∧ s' = { s with pending := s.pending - 1, freed := N.notifyWaiters s.freed }) ∨
      Nonempty (Did s s') := by
  have hheld : ∀ j, ∀ l ∈ (s.hosts.view j).held.keys, 0 < l := fun j => (h j).keys_pos.1
  -- a caller put where none was, or for another
  have hsnoc : ∀ {hosts : Hosts} {new : Caller N.Ticket}, Moved s hosts new → ∀ {i : Nat} {c},
      (s.callers ++ [new])[i]? = some c → s.callers[i]? = some c ∨ Moved s hosts c := by
    intro hosts new hnew i c hc
    rcases getElem?_snoc_cases hc with rfl | hold
    · exact .inr hnew
    · exact .inl hold
  have hset : ∀ {hosts : Hosts} {j : Nat} {new : Caller N.Ticket}, Moved s hosts new → ∀ {i : Nat} {c},
      (s.callers.set j new)[i]? = some c → s.callers[i]? = some c ∨ Moved s hosts c := by
    intro hosts j new hnew i c hc
    rcases getElem?_set_cases hc with rfl | hold
    · exact .inr hnew
    · exact .inl hold
  cases e with
  | tick elapsed =>
    cases hstep
    exact .inl ⟨elapsed, rfl⟩
  | notify =>
    simp only [State.step] at hstep
    split at hstep
    · rename_i hpending
      cases hstep
      exact .inr (.inl ⟨hpending, rfl⟩)
    · cases hstep
  | enter key limit now unix =>
    simp only [State.step] at hstep
    split at hstep
    · cases hstep
      exact .inr (.inr ⟨_, _, _, rfl, hsnoc (.awake rfl), fun _ => .startWaiting⟩)
    · cases hstep
  | register i =>
    simp only [State.step] at hstep
    split at hstep
    · split at hstep
      · cases hstep
        exact .inr (.inr ⟨_, _, _, rfl, hset (.registered rfl), fun _ => .of_entries rfl⟩)
      · cases hstep
    · cases hstep
  | check i now unix =>
    simp only [State.step] at hstep
    split at hstep
    · rename_i key limit ticket hc
      split at hstep
      · rename_i hnow
        cases hstep
        refine .inr (.inr ⟨_, _, _, rfl, hset ?_, fun _ => .tryAcquire⟩)
        cases hslot : (s.hosts.tryAcquire key limit now unix).2 with
        | none =>
          exact .refused rfl ⟨_, List.mem_of_getElem? hc, rfl⟩ hnow (Hosts.refuses_of_tryAcquire hslot)
        | some slot => exact .awake rfl
      · cases hstep
    · cases hstep
  | settle i now | cancel i now =>
    simp only [State.step] at hstep
    split at hstep
    · split at hstep
      · rename_i hnow
        cases hstep
        exact .inr (.inr ⟨_, _, _, rfl, hset (.awake rfl),
          fun hquiet => .stopWaiting hheld hnow hquiet⟩)
      · cases hstep
    · cases hstep
  | tryAcquire key limit now unix =>
    simp only [State.step] at hstep
    split at hstep
    · cases hstep
      refine .inr (.inr ⟨_, _, _, rfl, ?_, fun _ => .tryAcquire⟩)
      split
      · exact hsnoc (.awake rfl)
      · exact .inl
    · cases hstep
  | release i now =>
    simp only [State.step] at hstep
    split at hstep
    · split at hstep
      · cases hstep
        exact .inr (.inr ⟨_, _, _, rfl, hset (.awake rfl), fun hquiet => Bool.noConfusion hquiet⟩)
      · cases hstep
    · cases hstep
  | throttled i now unix =>
    simp only [State.step] at hstep
    split at hstep
    · split at hstep
      · rename_i hnow
        cases hstep
        exact .inr (.inr ⟨_, _, _, rfl, .inl, fun _ => .throttled hnow⟩)
      · cases hstep
    · cases hstep
  | accepted i now unix =>
    simp only [State.step] at hstep
    split at hstep
    · split at hstep
      · cases hstep
        exact .inr (.inr ⟨_, _, _, rfl, .inl, fun hquiet => .accepted hquiet⟩)
      · cases hstep
    · cases hstep
  | record key seen now unix =>
    simp only [State.step] at hstep
    split at hstep
    · rename_i hnow
      cases hstep
      exact .inr (.inr ⟨_, _, _, rfl, .inl, fun hquiet => .record hheld hnow hquiet⟩)
    · cases hstep
  | recordBest key connections unix =>
    cases hstep
    exact .inr (.inr ⟨_, _, _, rfl, .inl, fun _ => .of_entries (Hosts.entries_keep _ _ _ _)⟩)
  | keepIn file read unix =>
    cases hstep
    exact .inr (.inr ⟨_, _, _, rfl, .inl, fun _ => .of_entries (Hosts.entries_keepIn _ _ _ _)⟩)
  | save written unix =>
    cases hstep
    exact .inr (.inr ⟨_, _, _, rfl, .inl, fun _ => .of_entries (Hosts.entries_save _ _ _)⟩)

theorem State.Ticketed.step {s s' : State N} {e : Event} (ha : s.Accounted) (h : s.Ticketed)
    (hstep : s.step e = some s') : s'.Ticketed := by
  intro c hc ticket hphase
  rcases State.step_did ha hstep with ⟨elapsed, rfl⟩ | ⟨_, rfl⟩ | ⟨hosts, wakes, callers, rfl, hcaller, _⟩
  · exact h c hc ticket hphase
  · -- whoever holds a ticket is woken
    left
    rcases h c hc ticket hphase with hready | rfl
    · exact N.stays _ _ hready
    · exact N.wakes _
  · obtain ⟨i, hi⟩ := List.mem_iff_getElem?.mp hc
    rcases hcaller hi with hold | hawake | hregistered | ⟨hasleep, ⟨c₀, hc₀, hbefore⟩, _, _⟩
    · exact h c (List.mem_of_getElem? hold) ticket hphase
    · rw [hawake] at hphase
      cases hphase
    · rw [hregistered] at hphase
      cases hphase
      exact .inr rfl
    · rw [hasleep] at hphase
      cases hphase
      exact h c₀ hc₀ _ (by rw [hbefore]; rfl)

/-- A sleeper was just refused, or slept before a step that told nobody. -/
theorem State.Sleeps.before {s s' : State N} {e : Event} {i : Nat} {c : Caller N.Ticket} {ticket : N.Ticket}
    (ha : s.Accounted) (ht : s.Ticketed) (hstep : s.step e = some s') (h : s'.Sleeps i c ticket) :
    (∃ now ≤ s'.clock, s'.hosts.Refuses c.key c.limit now) ∨
      (s.Sleeps i c ticket ∧ s.clock ≤ s'.clock ∧ Quiet s.clock s.hosts s'.hosts) := by
  obtain ⟨hcaller, hphase, hunready, hpending⟩ := h
  rcases State.step_did ha hstep with ⟨elapsed, rfl⟩ | ⟨_, rfl⟩ | ⟨hosts, wakes, callers, rfl, hmoved, hquiet⟩
  · exact .inr ⟨⟨hcaller, hphase, hunready, hpending⟩, Nat.le_add_right _ _, .of_entries rfl⟩
  · -- it would have been woken
    have hready : N.ready (N.notifyWaiters s.freed) ticket = true := by
      rcases ht c (List.mem_of_getElem? hcaller) ticket (by rw [hphase]; rfl) with hready | rfl
      · exact N.stays _ _ hready
      · exact N.wakes _
    rw [hready] at hunready
    cases hunready
  · have hzero : s.pending = 0 ∧ wakes.toNat = 0 := Nat.add_eq_zero_iff.mp hpending
    have hwakes : wakes = false := Bool.toNat_eq_zero.mp hzero.2
    rcases hmoved hcaller with hold | hawake | hregistered | ⟨_, _, hnow, hrefuses⟩
    · exact .inr ⟨⟨hold, hphase, hunready, hzero.1⟩, le_rfl, hquiet hwakes⟩
    · rw [hphase] at hawake
      cases hawake
    · rw [hregistered] at hphase
      cases hphase
    · exact .inl ⟨_, hnow, hrefuses⟩

/-! ## Every run -/

end HostBudget

end Hyperfetch
