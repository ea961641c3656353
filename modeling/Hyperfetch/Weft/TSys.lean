import Mathlib.Logic.Relation

/-!
# Transition systems

A transition system is a set of initial states and a step relation. Safety
is proved once per system: `Inductive.invariant` turns a predicate that
holds initially and survives every step into one that holds of every
reachable state, and `Inductive.relative` lets a later predicate use an
earlier invariant on the way. `Machine` is the labelled, executable form: a
partial step function, run on a list of events.
-/

namespace Weft

universe u v w

/-- A transition system over states `σ`. -/
structure TSys (σ : Type u) where
  init : σ → Prop
  step : σ → σ → Prop

namespace TSys

variable {σ : Type u} {τ : Type v}

/-- The states some run reaches. -/
inductive Reachable (M : TSys σ) : σ → Prop
  | init {s} : M.init s → Reachable M s
  | step {s s'} : Reachable M s → M.step s s' → Reachable M s'

/-- `P` holds of every reachable state. -/
def Invariant (M : TSys σ) (P : σ → Prop) : Prop :=
  ∀ s, M.Reachable s → P s

/-- Zero or more steps. -/
def Steps (M : TSys σ) : σ → σ → Prop := Relation.ReflTransGen M.step

/-- `P` holds initially and survives every step. -/
structure Inductive (M : TSys σ) (P : σ → Prop) : Prop where
  init : ∀ s, M.init s → P s
  step : ∀ s s', P s → M.step s s' → P s'

theorem Inductive.invariant {M : TSys σ} {P : σ → Prop} (h : M.Inductive P) :
    M.Invariant P := by
  intro s hreach
  induction hreach with
  | init hinit => exact h.init _ hinit
  | step _ hstep ih => exact h.step _ _ ih hstep

/-- An invariant may be assumed while another is proved inductive. -/
theorem Inductive.relative {M : TSys σ} {Q P : σ → Prop} (hQ : M.Invariant Q)
    (init : ∀ s, M.init s → P s)
    (step : ∀ s s', Q s → Q s' → P s → M.step s s' → P s') : M.Invariant P := by
  intro s hreach
  induction hreach with
  | init hinit => exact init _ hinit
  | step hprev hstep ih => exact step _ _ (hQ _ hprev) (hQ _ (.step hprev hstep)) ih hstep

theorem Reachable.steps {M : TSys σ} {s s' : σ} (h : M.Reachable s) (hs : M.Steps s s') :
    M.Reachable s' := by
  induction hs with
  | refl => exact h
  | tail _ hstep ih => exact .step ih hstep

/-- A relation between a state and all later ones: reflexive, transitive and
implied by one step from a reachable state. -/
theorem Reachable.steps_induction {M : TSys σ} {R : σ → Prop} {s s' : σ}
    (h : M.Reachable s) (hs : M.Steps s s') (base : R s)
    (step : ∀ t t', M.Reachable t → R t → M.step t t' → R t') : R s' := by
  induction hs with
  | refl => exact base
  | tail hprev hstep ih => exact step _ _ (h.steps hprev) ih hstep

/-- A forward simulation of `C` by `A`: every concrete step is zero or more
abstract ones. -/
structure Simulation (C : TSys σ) (A : TSys τ) where
  abs : σ → τ
  init_ok : ∀ s, C.init s → A.init (abs s)
  square : ∀ s s', C.Reachable s → A.Reachable (abs s) → C.step s s' → A.Steps (abs s) (abs s')

theorem Simulation.reachable {C : TSys σ} {A : TSys τ} (sim : Simulation C A) {s : σ}
    (h : C.Reachable s) : A.Reachable (sim.abs s) := by
  induction h with
  | init hinit => exact .init (sim.init_ok _ hinit)
  | step hprev hstep ih => exact ih.steps (sim.square _ _ hprev ih hstep)

/-- Invariants of the abstract system are inherited. -/
theorem Simulation.invariant {C : TSys σ} {A : TSys τ} (sim : Simulation C A) {P : τ → Prop}
    (h : A.Invariant P) : C.Invariant (fun s => P (sim.abs s)) :=
  fun _ hreach => h _ (sim.reachable hreach)

end TSys

/-- A system whose steps are computed from events; `none` where an event is
not possible. -/
structure Machine (σ : Type u) (ε : Type w) where
  init : σ → Prop
  step : σ → ε → Option σ

namespace Machine

variable {σ : Type u} {ε : Type w}

/-- Some event leads from `s` to `s'`. -/
def toTSys (M : Machine σ ε) : TSys σ where
  init := M.init
  step s s' := ∃ e, M.step s e = some s'

/-- Takes the events in order. -/
def run (M : Machine σ ε) : σ → List ε → Option σ
  | s, [] => some s
  | s, e :: rest => (M.step s e).bind (M.run · rest)

@[simp] theorem run_nil (M : Machine σ ε) (s : σ) : M.run s [] = some s := rfl

theorem run_cons (M : Machine σ ε) (s : σ) (e : ε) (rest : List ε) :
    M.run s (e :: rest) = (M.step s e).bind (M.run · rest) := rfl

theorem run_append (M : Machine σ ε) (s : σ) (es fs : List ε) :
    M.run s (es ++ fs) = (M.run s es).bind (M.run · fs) := by
  induction es generalizing s with
  | nil => rfl
  | cons e rest ih =>
    simp only [List.cons_append, run_cons]
    cases M.step s e with
    | none => rfl
    | some t => simpa using ih t

/-- A run is a sequence of steps. -/
theorem steps_run {M : Machine σ ε} {s s' : σ} {es : List ε} (hrun : M.run s es = some s') :
    M.toTSys.Steps s s' := by
  induction es generalizing s with
  | nil => simp only [run_nil, Option.some.injEq] at hrun; exact hrun ▸ .refl
  | cons e rest ih =>
    rw [run_cons] at hrun
    cases hstep : M.step s e with
    | none => simp [hstep] at hrun
    | some t =>
      rw [hstep, Option.bind_some] at hrun
      exact .head ⟨e, hstep⟩ (ih hrun)

/-- What a run reaches is reachable. -/
theorem reachable_run {M : Machine σ ε} {s s' : σ} {es : List ε}
    (h : M.toTSys.Reachable s) (hrun : M.run s es = some s') : M.toTSys.Reachable s' :=
  h.steps (steps_run hrun)

end Machine

end Weft
