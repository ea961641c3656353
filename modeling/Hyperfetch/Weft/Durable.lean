import Mathlib.Tactic

/-!
# A file whose writes become durable at a sync

A file is what it holds and every content it had since its last sync. What a
crash leaves holds, at each place, what all of these agree on, and anything
where they do not; its length likewise. `Settled` is what a crash cannot
change, and `Survives` what one may leave.
-/

namespace Weft

variable {α : Type*}

structure DiskFile (α : Type*) where
  now : List α
  /-- What it held since its last sync, before `now`. -/
  before : List (List α)
  deriving DecidableEq, Repr

namespace DiskFile

/-- Every content that may still be on the disk. -/
def versions (f : DiskFile α) : List (List α) := f.now :: f.before

/-- A write, which is not durable yet. -/
def change (f : DiskFile α) (write : List α → List α) : DiskFile α := ⟨write f.now, f.versions⟩

def sync (f : DiskFile α) : DiskFile α := ⟨f.now, []⟩

/-- Place `i` holds `x`, whatever a crash does. -/
def Settled (f : DiskFile α) (i : Nat) (x : Option α) : Prop := ∀ xs ∈ f.versions, xs[i]? = x

/-- A crash may leave `content`. -/
def Survives (f : DiskFile α) (content : List α) : Prop :=
  (∀ i < max content.length f.now.length, f.Settled i f.now[i]? → content[i]? = f.now[i]?) ∧
    ((∀ c ∈ f.versions, c.length = f.now.length) → content.length = f.now.length)

instance [DecidableEq α] (f : DiskFile α) (i : Nat) (x : Option α) : Decidable (f.Settled i x) :=
  inferInstanceAs (Decidable (∀ xs ∈ f.versions, xs[i]? = x))

instance [DecidableEq α] (f : DiskFile α) (content : List α) : Decidable (f.Survives content) :=
  inferInstanceAs (Decidable (_ ∧ _))

/-- What the disk holds after a crash that leaves `content`. -/
def crashed (content : List α) : DiskFile α := ⟨content, []⟩

theorem now_mem_versions (f : DiskFile α) : f.now ∈ f.versions := List.mem_cons_self

/-- What holds of every version and of what a write makes of the last one
holds of every version after the write. -/
theorem forall_change {f : DiskFile α} {write : List α → List α} {P : List α → Prop}
    (h : ∀ c ∈ f.versions, P c) (hnew : P (write f.now)) : ∀ c ∈ (f.change write).versions, P c := by
  intro c hc
  rcases List.mem_cons.mp hc with rfl | hc
  · exact hnew
  · exact h c hc

theorem Settled.now {f : DiskFile α} {i : Nat} {x : Option α} (h : f.Settled i x) : f.now[i]? = x :=
  h _ f.now_mem_versions

/-- A write that leaves a settled place as it was keeps it settled. -/
theorem Settled.change {f : DiskFile α} {write : List α → List α} {i : Nat} {x : Option α}
    (h : f.Settled i x) (hsame : (write f.now)[i]? = x) : (f.change write).Settled i x :=
  forall_change h hsame

/-- A settled place is there after a crash. -/
theorem Survives.getElem? {f : DiskFile α} {content : List α} (h : f.Survives content) {i : Nat}
    {x : Option α} (hsettled : f.Settled i x) : content[i]? = x := by
  have hnow := hsettled.now
  rcases Nat.lt_or_ge i (max content.length f.now.length) with hi | hi
  · exact (h.1 i hi (hnow ▸ hsettled)).trans hnow
  · rw [List.getElem?_eq_none (by omega), ← hnow, List.getElem?_eq_none (by omega)]

theorem Survives.length {f : DiskFile α} {content : List α} (h : f.Survives content) {n : Nat}
    (hsized : ∀ c ∈ f.versions, c.length = n) : content.length = n := by
  have hnow : f.now.length = n := hsized _ f.now_mem_versions
  exact (h.2 fun c hc => (hsized c hc).trans hnow.symm).trans hnow

/-- What every version starts with is there after a crash. -/
theorem Survives.starts {f : DiskFile α} {content xs : List α} (h : f.Survives content)
    (hall : ∀ c ∈ f.versions, xs <+: c) : xs <+: content := by
  rw [List.prefix_iff_getElem?]
  intro i hi
  have hsettled : f.Settled i (some (xs.get ⟨i, hi⟩)) := fun c hc => by
    simpa using List.prefix_iff_getElem?.mp (hall c hc) i hi
  simpa using h.getElem? hsettled

end DiskFile

/-- `set_len`: cut off, or filled up with `zero`. -/
def setLen (zero : α) (n : Nat) (xs : List α) : List α := xs.take n ++ List.replicate (n - xs.length) zero

@[simp] theorem length_setLen (zero : α) (n : Nat) (xs : List α) : (setLen zero n xs).length = n := by
  simp only [setLen, List.length_append, List.length_take, List.length_replicate]
  omega

theorem setLen_of_length {zero : α} {n : Nat} {xs : List α} (h : xs.length = n) : setLen zero n xs = xs := by
  subst h
  simp [setLen]

/-- Cut to what it has at least, only the end goes. -/
theorem setLen_of_le {zero : α} {n : Nat} {xs : List α} (h : n ≤ xs.length) : setLen zero n xs = xs.take n := by
  simp [setLen, Nat.sub_eq_zero_of_le h]

end Weft
