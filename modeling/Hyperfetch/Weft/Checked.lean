import Mathlib.Tactic

/-!
# Computations that may fault

A program that indexes and slices bytes, computes in machine words and loops
can stop where functions on lists and numbers go on. `Checked` computations
end with a value, an error of their own, or a fault: an index or a slice out
of bounds, a sum or a difference that does not fit, a loop out of turns. A
computation refines a pure one if it is the pure one lifted, which cannot
fault.
-/

namespace Weft

inductive Halt (ε : Type)
  /-- Out of bounds, out of range or out of turns. -/
  | fault
  | error (e : ε)
  deriving DecidableEq, Repr

abbrev Checked (ε α : Type) := Except (Halt ε) α

namespace Checked

variable {ε α β : Type}

def fault : Checked ε α := .error .fault

def fail (e : ε) : Checked ε α := .error (.error e)

/-- The largest number a word of 64 bits holds. -/
def wordMax : Nat := 2 ^ 64 - 1

/-! ## What may fault -/

def add (a b : Nat) : Checked ε Nat := if a + b ≤ wordMax then .ok (a + b) else fault

def sub (a b : Nat) : Checked ε Nat := if b ≤ a then .ok (a - b) else fault

/-- `data[i]`. -/
def index (data : List α) (i : Nat) : Checked ε α :=
  match data[i]? with
  | some a => .ok a
  | none => fault

/-- `data[from..to]`. -/
def slice (data : List α) (first stop : Nat) : Checked ε (List α) :=
  if first ≤ stop ∧ stop ≤ data.length then .ok (data.extract first stop) else fault

theorem add_eq {a b : Nat} (h : a + b ≤ wordMax) : (add a b : Checked ε Nat) = .ok (a + b) := if_pos h

theorem sub_eq {a b : Nat} (h : b ≤ a) : (sub a b : Checked ε Nat) = .ok (a - b) := if_pos h

theorem index_eq {data : List α} {i : Nat} {a : α} (h : data[i]? = some a) : (index data i : Checked ε α) = .ok a := by
  rw [index, h]

theorem slice_eq {data : List α} {first stop : Nat} (h : first ≤ stop) (hin : stop ≤ data.length) :
    (slice data first stop : Checked ε (List α)) = .ok (data.extract first stop) := if_pos ⟨h, hin⟩

@[simp] theorem ok_bind (a : α) (f : α → Checked ε β) : (Except.ok a >>= f) = f a := rfl

/-- The bytes of a slice, never more than `isize::MAX`. -/
structure Slice where
  bytes : List UInt8
  length_le : bytes.length < 2 ^ 63

theorem Slice.add_eq (data : Slice) {a b : Nat} (h : a + b ≤ data.bytes.length + 1) :
    (add a b : Checked ε Nat) = .ok (a + b) := by
  have hlen := data.length_le
  exact Checked.add_eq (by unfold wordMax; omega)

/-! ## What cannot -/

/-- A computation that cannot fault. -/
def lift : Except ε α → Checked ε α
  | .ok a => .ok a
  | .error e => fail e

@[simp] theorem lift_ok (a : α) : lift (.ok a : Except ε α) = .ok a := rfl

theorem lift_bind (x : Except ε α) (f : α → Except ε β) : lift (x >>= f) = lift x >>= fun a => lift (f a) := by
  cases x <;> rfl

/-- Two computations that go on alike from what a lifted one gives. -/
theorem bind_congr_lift {x : Except ε α} {f g : α → Checked ε β} (h : ∀ a, x = .ok a → f a = g a) :
    (lift x >>= f) = lift x >>= g := by
  cases x with
  | error e => rfl
  | ok a => exact h a rfl

theorem lift_ne_fault (x : Except ε α) : lift x ≠ fault := by
  cases x <;> intro h <;> cases h

/-! ## What a computation meets -/

/-- No fault, and `p` of the value if there is one. -/
def Meets (x : Checked ε α) (p : α → Prop) : Prop := x ≠ fault ∧ ∀ a, x = .ok a → p a

theorem meets_ok {a : α} {p : α → Prop} (h : p a) : Meets (.ok a : Checked ε α) p := by
  refine ⟨fun hfault => ?_, fun b hb => ?_⟩
  · cases hfault
  · cases hb
    exact h

theorem meets_fail {e : ε} {p : α → Prop} : Meets (fail e : Checked ε α) p := by
  constructor
  · intro h
    cases h
  · intro a h
    cases h

theorem meets_lift (x : Except ε α) : Meets (lift x) fun a => x = .ok a := by
  cases x with
  | ok a => exact meets_ok rfl
  | error e => exact meets_fail

theorem meets_add {a b : Nat} (h : a + b ≤ wordMax) : Meets (add a b : Checked ε Nat) (· = a + b) := by
  rw [add_eq h]
  exact meets_ok rfl

theorem Meets.bind {x : Checked ε α} {f : α → Checked ε β} {p : α → Prop} {q : β → Prop} (hx : Meets x p)
    (hf : ∀ a, p a → Meets (f a) q) : Meets (x >>= f) q := by
  cases x with
  | ok a => exact hf a (hx.2 a rfl)
  | error e =>
    cases e with
    | fault => exact absurd rfl hx.1
    | error e => exact meets_fail

theorem Meets.imp {x : Checked ε α} {p q : α → Prop} (hx : Meets x p) (h : ∀ a, p a → q a) : Meets x q :=
  ⟨hx.1, fun a ha => h a (hx.2 a ha)⟩

theorem meets_slice {data : List α} {first stop : Nat} (h : first ≤ stop) (hin : stop ≤ data.length) :
    Meets (slice data first stop : Checked ε (List α)) fun part => part = data.extract first stop := by
  rw [slice_eq h hin]
  exact meets_ok rfl

/-! ## What a computation finds, if anything -/

/-- A value that may be missing, as `?` asks for it. -/
def ask (o : Option α) : OptionT (Checked ε) α := OptionT.mk (.ok o)

/-- No fault, and `p` of what is found. -/
def Finds (x : OptionT (Checked ε) α) (p : α → Prop) : Prop := Meets x.run fun found => ∀ a, found = some a → p a

theorem finds_ask (o : Option α) : Finds (ask o : OptionT (Checked ε) α) fun a => o = some a :=
  meets_ok fun _ h => h

theorem finds_pure {a : α} {p : α → Prop} (h : p a) : Finds (pure a : OptionT (Checked ε) α) p := by
  refine meets_ok fun b hb => ?_
  cases hb
  exact h

theorem finds_lift {x : Checked ε α} {p : α → Prop} (h : Meets x p) : Finds (liftM x : OptionT (Checked ε) α) p := by
  refine Meets.bind h fun a ha => meets_ok fun b hb => ?_
  cases hb
  exact ha

theorem Finds.bind {x : OptionT (Checked ε) α} {f : α → OptionT (Checked ε) β} {p : α → Prop} {q : β → Prop}
    (hx : Finds x p) (hf : ∀ a, p a → Finds (f a) q) : Finds (x >>= f) q := by
  refine Meets.bind hx fun found hfound => ?_
  cases found with
  | none => exact meets_ok fun b hb => nomatch hb
  | some a => exact hf a (hfound a rfl)

/-- What is found is what the computation gives. -/
theorem Finds.run {x : OptionT (Checked ε) α} {p : α → Prop} (h : Finds x p) :
    Finds x fun a => p a ∧ x.run = .ok (some a) := by
  refine ⟨h.1, fun found hfound a ha => ?_⟩
  subst ha
  exact ⟨h.2 (some a) hfound a rfl, hfound⟩

theorem ask_run {o : Option α} {a : α} : (ask o : OptionT (Checked ε) α).run = .ok (some a) ↔ o = some a :=
  Except.ok.injEq o (some a) ▸ Iff.rfl

theorem lift_run {x : Checked ε α} {a : α} : (liftM x : OptionT (Checked ε) α).run = .ok (some a) ↔ x = .ok a := by
  show (x >>= fun a => (.ok (some a) : Checked ε (Option α))) = .ok (some a) ↔ _
  cases x with
  | error e =>
    constructor
    · intro h
      cases h
    · intro h
      cases h
  | ok b =>
    rw [ok_bind]
    constructor
    · intro h
      cases h
      rfl
    · intro h
      cases h
      rfl

theorem bind_run {x : OptionT (Checked ε) α} {f : α → OptionT (Checked ε) β} {b : β} :
    (x >>= f).run = .ok (some b) ↔ ∃ a, x.run = .ok (some a) ∧ (f a).run = .ok (some b) := by
  rw [OptionT.run_bind]
  cases hx : x.run with
  | error e =>
    constructor
    · intro h
      cases h
    · rintro ⟨a, ha, -⟩
      cases ha
  | ok found =>
    cases found with
    | none =>
      constructor
      · intro h
        cases h
      · rintro ⟨a, ha, -⟩
        cases ha
    | some a =>
      constructor
      · intro h
        exact ⟨a, rfl, h⟩
      · rintro ⟨a', ha, h⟩
        cases ha
        exact h

theorem Finds.imp {x : OptionT (Checked ε) α} {p q : α → Prop} (hx : Finds x p) (h : ∀ a, p a → q a) : Finds x q :=
  Meets.imp hx fun _ hfound a ha => h a (hfound a ha)

end Checked

end Weft
