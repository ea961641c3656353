import Mathlib.Tactic
import Hyperfetch.Weft.TSys

/-!
# The claim on an output name (`engine.rs`)

`Claim::try_take` and `Drop` as the system calls they make on one lock file,
by any number of parties in any order. A lock belongs to the inode that was
opened, not to the name, and the name may come to mean another inode between
any two calls; a call may fail, and a party may die anywhere, which closes
what it has open.

A party's claim is live from the moment `try_take` returns it until its drop
begins.
-/

namespace Hyperfetch

open Weft

namespace Claim

/-- Where a party is. `left` counts the rounds of `try_take` after this one. -/
inductive Phase
  | idle
  | opening (left : Nat) (denied : Bool)
  | locking (left inode : Nat)
  /-- Locked; `is_file_at` is to open the path. -/
  | looking (left inode : Nat)
  /-- It opened the path, and found the inode `atPath`. -/
  | comparing (left inode atPath : Nat)
  /-- Not the file at the path: the lock file is closed. -/
  | releasing (left inode : Nat)
  /-- The claim is live. -/
  | holding (inode : Nat)
  | dropping (inode : Nat)
  /-- The name is gone, the lock is not. -/
  | closing (inode : Nat)
  | returned (error : Bool)
  deriving DecidableEq, Repr

/-- The inodes a party has open. -/
def Phase.opened : Phase → List Nat
  | .locking _ inode | .looking _ inode | .releasing _ inode | .holding inode | .dropping inode
  | .closing inode => [inode]
  | .comparing _ inode atPath => [inode, atPath]
  | .idle | .opening .. | .returned _ => []

/-- The inode a party has locked. -/
def Phase.lockOn : Phase → Option Nat
  | .looking _ inode | .comparing _ inode _ | .releasing _ inode | .holding inode | .dropping inode
  | .closing inode => some inode
  | .idle | .opening .. | .locking .. | .returned _ => none

/-- The next round of `try_take`, if there is one. -/
def Phase.again (denied : Bool) : Nat → Phase
  | 0 => .returned denied
  | left + 1 => .opening left denied

structure State where
  /-- The inode the lock file's name means. -/
  path : Option Nat
  /-- Who has an inode locked. -/
  locks : Nat → Option Nat
  parties : Nat → Phase

def State.goto (s : State) (p : Nat) (phase : Phase) : State :=
  { s with parties := Function.update s.parties p phase }

def State.lock (s : State) (p inode : Nat) : State :=
  { s with locks := Function.update s.locks inode (some p) }

def State.unlock (s : State) (inode : Nat) : State :=
  { s with locks := Function.update s.locks inode none }

/-- Closing all a party has open gives up every lock it has. -/
def State.unlockAll (s : State) (p : Nat) : State :=
  { s with locks := fun inode => if s.locks inode = some p then none else s.locks inode }

/-- One system call of party `p`, or its end. -/
inductive Step (p : Nat) (s : State) : State → Prop
  | start : s.parties p = .idle → Step p s (s.goto p (.again false 3))
  | openExisting {left denied inode} : s.parties p = .opening left denied → s.path = some inode →
      Step p s (s.goto p (.locking left inode))
  /-- A new file gets an inode that nobody has open. -/
  | create {left denied inode} : s.parties p = .opening left denied → s.path = none →
      (∀ q, inode ∉ (s.parties q).opened) →
      Step p s ({ s with path := some inode }.goto p (.locking left inode))
  | openDenied {left denied} : s.parties p = .opening left denied → Step p s (s.goto p (.again true left))
  | openFails {left denied} : s.parties p = .opening left denied → Step p s (s.goto p (.returned true))
  | lock {left inode} : s.parties p = .locking left inode → s.locks inode = none →
      Step p s ((s.lock p inode).goto p (.looking left inode))
  | lockBusy {left inode} : s.parties p = .locking left inode → s.locks inode ≠ none →
      Step p s (s.goto p (.returned false))
  | lockFails {left inode} : s.parties p = .locking left inode → Step p s (s.goto p (.returned true))
  | look {left inode atPath} : s.parties p = .looking left inode → s.path = some atPath →
      Step p s (s.goto p (.comparing left inode atPath))
  /-- Deleted meanwhile, or it cannot be opened. -/
  | lookFails {left inode} : s.parties p = .looking left inode →
      Step p s (s.goto p (.releasing left inode))
  | same {left inode} : s.parties p = .comparing left inode inode → Step p s (s.goto p (.holding inode))
  | differs {left inode atPath} : s.parties p = .comparing left inode atPath → atPath ≠ inode →
      Step p s (s.goto p (.releasing left inode))
  | compareFails {left inode atPath} : s.parties p = .comparing left inode atPath →
      Step p s ((s.unlock inode).goto p (.returned true))
  | release {left inode} : s.parties p = .releasing left inode →
      Step p s ((s.unlock inode).goto p (.again false left))
  | drop {inode} : s.parties p = .holding inode → Step p s (s.goto p (.dropping inode))
  | unlink {inode} : s.parties p = .dropping inode →
      Step p s ({ s with path := none }.goto p (.closing inode))
  | unlinkFails {inode} : s.parties p = .dropping inode → Step p s (s.goto p (.closing inode))
  | close {inode} : s.parties p = .closing inode → Step p s ((s.unlock inode).goto p .idle)
  | returns {error} : s.parties p = .returned error → Step p s (s.goto p .idle)
  | dies : Step p s ((s.unlockAll p).goto p .idle)

/-- Nobody has begun; the lock file may be left from an earlier run. -/
def claims : TSys State where
  init s := (∀ p, s.parties p = .idle) ∧ ∀ inode, s.locks inode = none
  step s s' := ∃ p, Step p s s'

/-! ## The invariant -/

/-- The inode a party's phase says the path means. -/
def Phase.named : Phase → Option Nat
  | .comparing _ inode atPath => if atPath = inode then some inode else none
  | .holding inode | .dropping inode => some inode
  | _ => none

theorem Phase.named_lockOn {phase : Phase} {inode : Nat} (h : phase.named = some inode) :
    phase.lockOn = some inode := by
  cases phase with
  | comparing left i j =>
    simp only [Phase.named] at h
    split at h
    · exact h
    · cases h
  | holding i => exact h
  | dropping i => exact h
  | _ => cases h

theorem Phase.lockOn_again (denied : Bool) (left : Nat) : (Phase.again denied left).lockOn = none := by
  cases left <;> rfl

theorem Phase.named_again (denied : Bool) (left : Nat) : (Phase.again denied left).named = none := by
  cases left <;> rfl

/-- The lock table is what the parties hold. Once a party has locked an inode
and seen it at the path, the path keeps meaning it: only who has that lock
unlinks it. -/
structure Sound (s : State) : Prop where
  locks : ∀ p inode, (s.parties p).lockOn = some inode ↔ s.locks inode = some p
  path : ∀ p inode, (s.parties p).named = some inode → s.path = some inode

/-- Party `p` moves on; what it does to the locks and the path concerns no
other party. -/
theorem Sound.goto {s s' : State} {p : Nat} {phase : Phase} (h : Sound s)
    (hlocks : ∀ inode, phase.lockOn = some inode ↔ s'.locks inode = some p)
    (hothers : ∀ q inode, q ≠ p → (s'.locks inode = some q ↔ s.locks inode = some q))
    (hnamed : ∀ inode, phase.named = some inode → s'.path = some inode)
    (hpaths : ∀ q inode, q ≠ p → (s.parties q).named = some inode → s'.path = some inode)
    (hparties : s'.parties = s.parties) : Sound (s'.goto p phase) := by
  refine ⟨fun q inode => ?_, fun q inode hq => ?_⟩
  · show (Function.update s'.parties p phase q).lockOn = _ ↔ s'.locks inode = some q
    by_cases hqp : q = p
    · subst hqp
      rw [Function.update_self]
      exact hlocks inode
    · rw [Function.update_of_ne hqp, hparties, h.locks]
      exact (hothers q inode hqp).symm
  · change (Function.update s'.parties p phase q).named = _ at hq
    by_cases hqp : q = p
    · subst hqp
      rw [Function.update_self] at hq
      exact hnamed inode hq
    · rw [Function.update_of_ne hqp, hparties] at hq
      exact hpaths q inode hqp hq

/-- A step that changes neither the locks nor the path. -/
theorem Sound.stay {s : State} {p : Nat} {phase : Phase} (h : Sound s)
    (hlock : phase.lockOn = (s.parties p).lockOn)
    (hnamed : ∀ inode, phase.named = some inode → s.path = some inode) : Sound (s.goto p phase) :=
  h.goto (fun inode => hlock ▸ h.locks p inode) (fun _ _ _ => Iff.rfl) hnamed
    (fun q inode _ => h.path q inode) rfl

/-- A step that gives up the lock a party has. -/
theorem Sound.giveUp {s : State} {p inode : Nat} {phase : Phase} (h : Sound s)
    (hat : (s.parties p).lockOn = some inode) (hlock : phase.lockOn = none) (hnamed : phase.named = none) :
    Sound ((s.unlock inode).goto p phase) := by
  have hown := (h.locks p inode).mp hat
  refine h.goto (fun i => ?_) (fun q i hqp => ?_) (fun i hi => ?_) (fun q i _ => h.path q i) rfl
  · rw [hlock]
    simp only [State.unlock, Function.update_apply, reduceCtorEq, false_iff]
    split
    · simp
    · rename_i hne
      intro hi
      rw [← h.locks, hat] at hi
      exact hne (Option.some.inj hi).symm
  · simp only [State.unlock, Function.update_apply]
    split
    · rename_i heq
      subst heq
      rw [hown]
      simp [Ne.symm hqp]
    · rfl
  · rw [hnamed] at hi
    cases hi

theorem Sound.step {s s' : State} {p : Nat} (h : Sound s) (hstep : Step p s s') : Sound s' := by
  cases hstep with
  | start hp => exact h.stay (by rw [hp]; rfl) (by simp [Phase.again, Phase.named])
  | openExisting hp hpath => exact h.stay (by rw [hp]; rfl) (by simp [Phase.named])
  | create hp hpath hfresh =>
    refine h.goto (fun i => ?_) (fun _ _ _ => Iff.rfl) (fun i hi => ?_) (fun q i _ hq => ?_) rfl
    · rw [← h.locks, hp]
      exact Iff.rfl
    · cases hi
    · -- no party has seen anything at a path that means nothing
      have := h.path q i hq
      rw [hpath] at this
      cases this
  | @openDenied left denied hp =>
    exact h.stay (by rw [hp, Phase.lockOn_again]; rfl) (by simp [Phase.named_again])
  | openFails hp => exact h.stay (by rw [hp]; rfl) (by simp [Phase.named])
  | @lock left inode hp hfree =>
    refine h.goto (fun i => ?_) (fun q i hqp => ?_) (fun i hi => ?_) (fun q i _ => h.path q i) rfl
    · simp only [State.lock, Function.update_apply, Phase.lockOn]
      split
      · rename_i heq
        simp [heq]
      · rename_i hne
        rw [← h.locks, hp]
        simp [Phase.lockOn, Ne.symm hne]
    · simp only [State.lock, Function.update_apply]
      split
      · rename_i heq
        subst heq
        rw [hfree]
        simp [Ne.symm hqp]
      · rfl
    · cases hi
  | lockBusy hp hbusy => exact h.stay (by rw [hp]; rfl) (by simp [Phase.named])
  | lockFails hp => exact h.stay (by rw [hp]; rfl) (by simp [Phase.named])
  | @look left inode atPath hp hpath =>
    refine h.stay (by rw [hp]; rfl) fun i hi => ?_
    simp only [Phase.named] at hi
    split at hi
    · rename_i heq
      rw [hpath, heq, hi]
    · cases hi
  | lookFails hp => exact h.stay (by rw [hp]; rfl) (by simp [Phase.named])
  | @same left inode hp =>
    refine h.stay (by rw [hp]; rfl) fun i hi => ?_
    refine h.path p i ?_
    rw [hp]
    simpa [Phase.named] using hi
  | differs hp hne => exact h.stay (by rw [hp]; rfl) (by simp [Phase.named])
  | compareFails hp => exact h.giveUp (by rw [hp]; rfl) rfl rfl
  | release hp => exact h.giveUp (by rw [hp]; rfl) (Phase.lockOn_again ..) (Phase.named_again ..)
  | drop hp =>
    refine h.stay (by rw [hp]; rfl) fun i hi => h.path p i ?_
    rw [hp]
    exact hi
  | @unlink inode hp =>
    refine h.goto (fun i => ?_) (fun _ _ _ => Iff.rfl) (fun i hi => ?_) (fun q i hqp hq => ?_) rfl
    · rw [← h.locks, hp]
      exact Iff.rfl
    · cases hi
    · -- another party that saw the same inode at the path would have the same lock
      have hpath := h.path p inode (by rw [hp]; rfl)
      have hlock := (h.locks p inode).mp (by rw [hp]; rfl)
      have hsame : i = inode := Option.some.inj ((h.path q i hq).symm.trans hpath)
      have hlock' := (h.locks q i).mp (Phase.named_lockOn hq)
      rw [hsame, hlock] at hlock'
      exact absurd (Option.some.inj hlock').symm hqp
  | unlinkFails hp => exact h.stay (by rw [hp]; rfl) (by simp [Phase.named])
  | close hp => exact h.giveUp (by rw [hp]; rfl) rfl rfl
  | returns hp => exact h.stay (by rw [hp]; rfl) (by simp [Phase.named])
  | dies =>
    refine h.goto (fun i => ?_) (fun q i hqp => ?_) (fun i hi => ?_) (fun q i _ => h.path q i) rfl
    · simp only [State.unlockAll, Phase.lockOn, reduceCtorEq, false_iff]
      split
      · simp
      · assumption
    · simp only [State.unlockAll]
      split
      · rename_i heq
        rw [heq]
        simp [Ne.symm hqp]
      · rfl
    · cases hi

theorem sound_inductive : claims.Inductive Sound where
  init := by
    rintro s ⟨hidle, hfree⟩
    exact ⟨fun p inode => by simp [hidle p, hfree inode, Phase.lockOn], fun p inode hp => by
      simp [hidle p, Phase.named] at hp⟩
  step := by
    rintro s s' h ⟨p, hstep⟩
    exact h.step hstep

/-- A live claim rests on the inode the path means, and has it locked. -/
theorem Sound.holding {s : State} (h : Sound s) {p inode : Nat} (hp : s.parties p = .holding inode) :
    s.path = some inode ∧ s.locks inode = some p :=
  ⟨h.path p inode (by rw [hp]; rfl), (h.locks p inode).mp (by rw [hp]; rfl)⟩

/-- At any time one claim at most is live; it has the inode locked that the
path means; and when a drop unlinks, it unlinks the file its own claim rested
on, and no claim is live. -/
theorem claim_excludes : claims.Invariant fun s =>
    (∀ p q i j, s.parties p = .holding i → s.parties q = .holding j → p = q) ∧
      (∀ p i, s.parties p = .holding i → s.path = some i ∧ s.locks i = some p) ∧
      ∀ p i s', s.parties p = .dropping i → Step p s s' → s'.path ≠ s.path →
        s.path = some i ∧ ∀ q j, s.parties q ≠ .holding j := by
  intro s hreach
  have h := sound_inductive.invariant s hreach
  refine ⟨fun p q i j hp hq => ?_, fun p i hp => h.holding hp, fun p i s' hp _ _ => ?_⟩
  · obtain ⟨hpath, hlock⟩ := h.holding hp
    obtain ⟨hpath', hlock'⟩ := h.holding hq
    have hij : i = j := Option.some.inj (hpath.symm.trans hpath')
    rw [← hij, hlock] at hlock'
    exact Option.some.inj hlock'
  · have hpath := h.path p i (by rw [hp]; rfl)
    have hlock := (h.locks p i).mp (by rw [hp]; rfl)
    refine ⟨hpath, fun q j hq => ?_⟩
    obtain ⟨hpath', hlock'⟩ := h.holding hq
    have hij : i = j := Option.some.inj (hpath.symm.trans hpath')
    rw [← hij, hlock] at hlock'
    cases Option.some.inj hlock'
    rw [hp] at hq
    cases hq

/-- Party 0 makes the file and takes the claim; party 1 opened it before party
0's drop unlinks it. -/
theorem claim_excludes_two : ∃ s s', claims.Reachable s ∧ s.parties 0 = .dropping 7 ∧
    s.parties 1 = .locking 2 7 ∧ Step 0 s s' ∧ s'.path = none ∧
    (s.path = some 7 ∧ ∀ q j, s.parties q ≠ .holding j) := by
  have h0 : claims.Reachable ⟨none, fun _ => none, fun _ => .idle⟩ := .init ⟨fun _ => rfl, fun _ => rfl⟩
  have h1 := h0.step ⟨0, .start rfl⟩
  have h2 := h1.step ⟨0, @Step.create 0 _ 2 false 7 rfl rfl fun q => by
    by_cases hq : q = 0 <;> simp [State.goto, hq, Phase.again, Phase.opened]⟩
  have h3 := h2.step ⟨0, .lock rfl rfl⟩
  have h4 := h3.step ⟨0, .look rfl rfl⟩
  have h5 := h4.step ⟨0, .same rfl⟩
  have h6 := h5.step ⟨1, .start rfl⟩
  have h7 := h6.step ⟨1, .openExisting rfl rfl⟩
  have h8 := h7.step ⟨0, .drop rfl⟩
  refine ⟨_, _, h8, rfl, rfl, .unlink rfl, rfl, ?_⟩
  exact (claim_excludes _ h8).2.2 0 7 _ rfl (.unlink rfl) (show (none : Option Nat) ≠ some 7 by simp)

end Claim

end Hyperfetch
