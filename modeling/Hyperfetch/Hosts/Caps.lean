import Hyperfetch.Hosts.Grants
import Mathlib.Tactic

/-!
# Caps of zero (`hosts.rs`)

A cap of zero would keep every request to a host waiting. None is recorded
(`Facts.record`), learned from a refusal (`throttled`) or a default. Only the
cap read back from the file is taken as it is, so a run stays clear of zeros
if it makes no entry for a host the file has one for (`Careful`). Then a host
with nothing open grants, unless that very request would make such an entry.
-/

namespace Hyperfetch

open Weft

namespace HostBudget

variable {N : Notify}

/-- The cap learned, if any, is not zero. -/
def Entry.CapPos (e : Entry) : Prop := ∀ v learned, e.facts.connectionCap = some (v, learned) → 0 < v

def Hosts.CapsPos (h : Hosts) : Prop := ∀ key e, h.entries.get key = some e → e.CapPos

/-- `key`'s host has no entry, and one would start from a cap of zero. -/
def Hosts.ZeroKept (h : Hosts) (key : HostKey) (unix : Nat) : Prop :=
  h.entries.get key = none ∧ (h.keptOf key unix).bind Kept.cap = some 0

/-- The host an operation looks up or makes the entry of, and when. -/
def State.opens (s : State N) : Event → Option (HostKey × Nat)
  | .enter key _ _ unix | .tryAcquire key _ _ unix | .record key _ _ unix => some (key, unix)
  | .check i _ unix => (s.callers[i]?).map fun c => (c.key, unix)
  | _ => none

/-- No entry starts from a cap of zero. -/
def State.Careful (s : State N) (e : Event) : Prop :=
  ∀ key unix, s.opens e = some (key, unix) → ¬ s.hosts.ZeroKept key unix

/-! ## No operation makes a zero -/

namespace Hosts.CapsPos

variable {h : Hosts} {key : HostKey} {now unix : Nat}

theorem congr (hc : h.CapsPos) {h' : Hosts} (hentries : h'.entries = h.entries) : h'.CapsPos := by
  intro j e he
  rw [hentries] at he
  exact hc j e he

theorem put (hc : h.CapsPos) {e : Entry} (he : e.CapPos) : (h.put key e).CapsPos := by
  intro j e' he'
  rw [get_put] at he'
  split at he'
  · cases he'
    exact he
  · exact hc j e' he'

theorem forgetIdle (hc : h.CapsPos) : (h.forgetIdle now).CapsPos :=
  fun j e he => hc j e (get_of_forgetIdle he)

theorem entry (hc : h.CapsPos) (hzero : ¬ h.ZeroKept key unix) : (h.entry key now unix).CapPos := by
  unfold Hosts.entry
  cases hget : h.entries.get key with
  | some e => exact hc key e hget
  | none =>
    intro v learned hcap
    simp only [Option.getD_none, newEntry, Option.map_eq_some_iff] at hcap
    obtain ⟨cap, hkept, hpair⟩ := hcap
    cases hpair
    exact Nat.pos_of_ne_zero fun hv => hzero ⟨hget, hv ▸ hkept⟩

theorem record (hc : h.CapsPos) (hzero : ¬ h.ZeroKept key unix) (seen : HostProfile) :
    (h.record key seen now unix).1.CapsPos := by
  refine forgetIdle (hc.put fun v learned hcap => ?_)
  simp only [Facts.record, learn] at hcap
  split at hcap
  · rename_i value hseen
    cases hcap
    exact of_decide_eq_true (Option.filter_eq_some_iff.mp hseen).2
  · exact hc.entry hzero v learned hcap

theorem tryAcquire (hc : h.CapsPos) (hzero : ¬ h.ZeroKept key unix) (limit : Nat) :
    (h.tryAcquire key limit now unix).1.CapsPos := by
  unfold Hosts.tryAcquire
  simp only
  split
  · exact hc.put (hc.entry hzero)
  · exact hc.put fun v learned hcap => hc.entry hzero v learned hcap

theorem startWaiting (hc : h.CapsPos) (hzero : ¬ h.ZeroKept key unix) (limit : Nat) :
    (h.startWaiting key limit now unix).CapsPos :=
  hc.put fun v learned hcap => hc.entry hzero v learned hcap

theorem stopWaiting (hc : h.CapsPos) (limit : Nat) : (h.stopWaiting key limit now).1.CapsPos := by
  unfold Hosts.stopWaiting
  cases hget : h.entries.get key with
  | none => exact hc.forgetIdle
  | some e => exact forgetIdle (hc.put fun v learned hcap => hc key e hget v learned hcap)

theorem release (hc : h.CapsPos) (limit : Nat) : (h.release key limit now).CapsPos := by
  unfold Hosts.release
  cases hget : h.entries.get key with
  | none => exact hc.forgetIdle
  | some e => exact forgetIdle (hc.put fun v learned hcap => hc key e hget v learned hcap)

/-- A refused request alone at its host teaches nothing. -/
theorem throttled (hc : h.CapsPos) : (h.throttled key now unix).CapsPos := by
  intro j e' he'
  rcases h.get_throttled key now unix j with hsame | ⟨e, _, _, hothers, hnew⟩
  · exact hc j e' (hsame ▸ he')
  · rw [hnew] at he'
    cases he'
    intro v learned hcap
    cases hcap
    exact hothers

theorem accepted (hc : h.CapsPos) : (h.accepted key now unix).1.CapsPos := by
  intro j e' he'
  rcases h.get_accepted key now unix j with hsame | ⟨e, cap, learned, _, _, _, hnew⟩
  · exact hc j e' (hsame ▸ he')
  · rw [hnew] at he'
    cases he'
    intro v _ hcap
    cases hcap
    exact Nat.succ_pos cap

end Hosts.CapsPos

theorem State.capsPos_step {s s' : State N} {e : Event} (hc : s.hosts.CapsPos) (hcare : s.Careful e)
    (hstep : s.step e = some s') : s'.hosts.CapsPos := by
  cases e with
  | tick elapsed =>
    cases hstep
    exact hc
  | enter key limit now unix =>
    simp only [State.step] at hstep
    split at hstep
    · cases hstep
      exact hc.startWaiting (hcare key unix rfl) limit
    · cases hstep
  | register i =>
    simp only [State.step] at hstep
    split at hstep
    · split at hstep
      · cases hstep
        exact hc
      · cases hstep
    · cases hstep
  | check i now unix =>
    simp only [State.step] at hstep
    split at hstep
    · rename_i key limit ticket hcaller
      split at hstep
      · cases hstep
        exact hc.tryAcquire (hcare key unix (by rw [opens, hcaller]; rfl)) limit
      · cases hstep
    · cases hstep
  | settle i now | cancel i now =>
    simp only [State.step] at hstep
    split at hstep
    · split at hstep
      · cases hstep
        exact hc.stopWaiting _
      · cases hstep
    · cases hstep
  | tryAcquire key limit now unix =>
    simp only [State.step] at hstep
    split at hstep
    · cases hstep
      exact hc.tryAcquire (hcare key unix rfl) limit
    · cases hstep
  | release i now =>
    simp only [State.step] at hstep
    split at hstep
    · split at hstep
      · cases hstep
        exact hc.release _
      · cases hstep
    · cases hstep
  | throttled i now unix =>
    simp only [State.step] at hstep
    split at hstep
    · split at hstep
      · cases hstep
        exact hc.throttled
      · cases hstep
    · cases hstep
  | accepted i now unix =>
    simp only [State.step] at hstep
    split at hstep
    · split at hstep
      · cases hstep
        exact hc.accepted
      · cases hstep
    · cases hstep
  | record key seen now unix =>
    simp only [State.step] at hstep
    split at hstep
    · cases hstep
      exact hc.record (hcare key unix rfl) seen
    · cases hstep
  | recordBest key connections unix =>
    cases hstep
    exact hc.congr (Hosts.entries_keep _ _ _ _)
  | keepIn file read unix =>
    cases hstep
    exact hc.congr (Hosts.entries_keepIn _ _ _ _)
  | save written unix =>
    cases hstep
    exact hc.congr (Hosts.entries_save _ _ _)
  | notify =>
    simp only [State.step] at hstep
    split at hstep
    · cases hstep
      exact hc
    · cases hstep

/-! ## What grants -/

/-- Nothing an entry's allowance is made of is zero. -/
theorem Balanced.allowance_pos {e : Entry} {slots waits : Multiset Nat} (h : Balanced e slots waits)
    (hcap : e.CapPos) (key : HostKey) (limit now : Nat) : 0 < e.allowance key limit now := by
  rw [← not_le]
  show ¬ e.allowance key limit now ≤ ((0 : Nat) : WithTop Nat)
  rw [Entry.allowance_le_iff]
  rintro (⟨hpos, hle⟩ | ⟨l, hl, hle⟩ | ⟨l, hl, hle⟩ | ⟨cap, hforce, hle⟩)
  · omega
  · have := h.keys_pos.1 l hl
    omega
  · have := h.keys_pos.2 l hl
    omega
  · rcases Option.or_eq_some_iff.mp hforce with hfresh | ⟨_, hdefault⟩
    · obtain ⟨learned, hfact, _⟩ := fresh_eq_some_iff.mp hfresh
      have := hcap cap learned hfact
      omega
    · have := defaultConnectionCap_pos hdefault
      omega

/-- With nothing open, what decides is whether the entry starts from a zero. -/
theorem Hosts.tryAcquire_idle_iff {h : Hosts} {slots waits : HostKey → Multiset Nat} (ha : Accounts h slots waits)
    (hc : h.CapsPos) {key : HostKey} (hidle : slots key = 0) (limit now unix : Nat) :
    (h.tryAcquire key limit now unix).2.isSome = true ↔ ¬ h.ZeroKept key unix := by
  have hbal := (ha key).same (h.sameBudget_entry key now unix)
  have hopen : (h.entry key now unix).openCount = 0 := by
    rw [hbal.openCount, hidle]
    rfl
  have hgrants : (h.tryAcquire key limit now unix).2.isSome = true ↔
      ¬ (h.entry key now unix).allowance key limit now ≤ ((0 : Nat) : WithTop Nat) := by
    unfold tryAcquire
    simp only [hopen]
    split <;> simp_all
  rw [hgrants, not_iff_not]
  constructor
  · intro hle
    by_contra hzero
    exact absurd (hbal.allowance_pos (hc.entry hzero) key limit now) (not_lt.mpr hle)
  · rintro ⟨hget, hkept⟩
    -- a cap of zero, as if just learned
    rw [Entry.allowance_le_iff]
    refine .inr (.inr (.inr ⟨0, ?_, le_rfl⟩))
    have hfresh : fresh (h.entry key now unix).facts.connectionCap now = some 0 := by
      refine fresh_eq_some_iff.mpr ⟨now, ?_, ?_⟩
      · rw [Hosts.entry, hget, Option.getD_none, newEntry, hkept]
        rfl
      · rw [Nat.sub_self]
        decide
    rw [Entry.cap, hfresh]
    rfl

variable (N)

/-- The runs that make no entry from a cap of zero. -/
def carefulBudget : TSys (State N) where
  init s := s = State.start N
  step s s' := ∃ e, s.Careful e ∧ s.step e = some s'

/-- Such runs are runs. -/
def carefulSimulation : TSys.Simulation (carefulBudget N) (budget N).toTSys where
  abs := id
  init_ok _ h := h
  square _ _ _ _ := fun ⟨e, _, hstep⟩ => .single ⟨e, hstep⟩

theorem capsPos_invariant : (carefulBudget N).Invariant fun s => s.hosts.CapsPos :=
  TSys.Inductive.invariant
    { init := fun s hs key e he => by cases hs; cases he
      step := fun s s' hc ⟨_, hcare, hstep⟩ => State.capsPos_step hc hcare hstep }

/-- In every state of such a run, no entry allows nothing, and a host with no
request open grants the next one, whoever waits: unless that request is the
one to make an entry from a cap of zero. -/
theorem idle_host_grants : (carefulBudget N).Invariant fun s =>
    (∀ key e, s.hosts.entries.get key = some e → ∀ limit now, 0 < e.allowance key limit now) ∧
    ∀ key, (∀ c ∈ s.callers, c.key = key → c.holds = false) → ∀ limit now unix,
      ((s.hosts.tryAcquire key limit now unix).2.isSome = true ↔ ¬ s.hosts.ZeroKept key unix) := by
  intro s hreach
  have hc := capsPos_invariant N s hreach
  have ha : s.Accounted := (carefulSimulation N).invariant accounted_invariant s hreach
  constructor
  · intro key e he limit now
    have hbal := ha key
    rw [Hosts.view_of_get he] at hbal
    exact hbal.allowance_pos (hc key e he) key limit now
  · intro key hidle limit now unix
    refine Hosts.tryAcquire_idle_iff ha hc ?_ limit now unix
    rw [slotsOf, Multiset.filter_eq_nil.mpr, Multiset.map_zero]
    rintro c hc' ⟨hkey, hholds⟩
    rw [hidle c (Multiset.mem_coe.mp hc') hkey] at hholds
    cases hholds

/-- The file of hosts holds a cap for one. -/
def keptCap (cap : Nat) : Table String Kept := Table.empty.set "http://h:0" { cap := some cap }

/-- A cap of one kept for the host, and a request for it that waits: nothing
is open, and another is granted. -/
theorem idle_host_grants_kept : ∃ s, (budget .counting).run (State.start .counting)
      [.keepIn "hosts.json" (some (keptCap 1)) 0, .enter (port 0) 4 0 0] = some s ∧
    (s.hosts.tryAcquire (port 0) 4 0 0).2.isSome = true := by
  have hcare : ∀ s : State .counting, s.Careful (.keepIn "hosts.json" (some (keptCap 1)) 0) :=
    fun _ _ _ h => by cases h
  have hread : ∃ s, (State.start .counting).step (.keepIn "hosts.json" (some (keptCap 1)) 0) = some s ∧
      s.Careful (.enter (port 0) 4 0 0) := by
    refine ⟨_, rfl, fun key unix h => ?_⟩
    cases h
    exact fun hzero => absurd hzero.2 (by decide)
  obtain ⟨s, hs, hcareful⟩ := hread
  have hentered : ∃ s', s.step (.enter (port 0) 4 0 0) = some s' ∧
      (∀ c ∈ s'.callers, c.key = port 0 → c.holds = false) ∧ s'.hosts.entries.get (port 0) ≠ none := by
    cases hs
    exact ⟨_, rfl, by decide, by decide⟩
  obtain ⟨s', hs', hidle, hentry⟩ := hentered
  have hreach : (carefulBudget .counting).Reachable s' :=
    .step (.step (.init rfl) ⟨_, hcare _, hs⟩) ⟨_, hcareful, hs'⟩
  refine ⟨s', ?_, ?_⟩
  · simp only [Machine.run_cons, budget, hs, hs', Option.bind_some]
    rfl
  · exact ((idle_host_grants .counting s' hreach).2 (port 0) hidle 4 0 0).mpr fun hzero => hentry hzero.1

/-- With a cap of zero in the file, the first request to that host is refused. -/
theorem zero_cap_refuses : ¬ ∀ N, (budget N).toTSys.Invariant fun s =>
    ∀ key, (∀ c ∈ s.callers, c.key = key → c.holds = false ∧ c.waits = false) → ∀ limit now unix,
      (s.hosts.tryAcquire key limit now unix).2.isSome = true := by
  intro hall
  have hrun : ∃ s, (budget .counting).run (State.start .counting)
      [.keepIn "hosts.json" (some (keptCap 0)) 0] = some s ∧ s.callers = [] ∧
        (s.hosts.tryAcquire (port 0) 4 0 0).2.isSome = false := by
    refine ⟨_, rfl, rfl, ?_⟩
    decide
  obtain ⟨s, hs, hcallers, hrefused⟩ := hrun
  have hreach := Machine.reachable_run (reachable_start .counting) hs
  have hgranted := hall .counting s hreach (port 0) (by simp [hcallers]) 4 0 0
  rw [hrefused] at hgranted
  cases hgranted

end HostBudget

end Hyperfetch
