import Mathlib.Tactic

/-!
# Finite maps, and tallies

A `Table` is a function to options together with the finite set of keys it
is defined at. `alter` changes one key, `filter` drops keys. A table to
numbers can tally a multiset (`Tallies`): each member is a key, and its value
how often it occurs. `bump` and `unbump` then are insertion and removal.
-/

namespace Weft

variable {κ ν : Type*}

structure Table (κ ν : Type*) where
  keys : Finset κ
  get : κ → Option ν
  mem_keys : ∀ k, k ∈ keys ↔ (get k).isSome = true

namespace Table

def empty : Table κ ν := ⟨∅, fun _ => none, by simp⟩

instance : Inhabited (Table κ ν) := ⟨empty⟩

@[simp] theorem get_empty (k : κ) : (empty : Table κ ν).get k = none := rfl

theorem ext_get {t u : Table κ ν} (h : ∀ k, t.get k = u.get k) : t = u := by
  have hget : t.get = u.get := funext h
  have hkeys : t.keys = u.keys := by
    ext k
    rw [t.mem_keys, u.mem_keys, h]
  cases t
  cases u
  cases hget
  cases hkeys
  rfl

theorem not_mem_keys {t : Table κ ν} {k : κ} : k ∉ t.keys ↔ t.get k = none := by
  rw [t.mem_keys, Bool.not_eq_true, Option.isSome_eq_false_iff, Option.isNone_iff_eq_none]

theorem mem_keys_of_get {t : Table κ ν} {k : κ} {v : ν} (h : t.get k = some v) : k ∈ t.keys :=
  (t.mem_keys k).mpr (by rw [h]; rfl)

/-- Keeps what `p` holds of. -/
def filter (t : Table κ ν) (p : κ → ν → Bool) : Table κ ν where
  keys := t.keys.filter fun k => ((t.get k).filter (p k)).isSome
  get k := (t.get k).filter (p k)
  mem_keys k := by
    rw [Finset.mem_filter, t.mem_keys]
    cases t.get k <;> simp

@[simp] theorem get_filter (t : Table κ ν) (p : κ → ν → Bool) (k : κ) :
    (t.filter p).get k = (t.get k).filter (p k) := rfl

variable [DecidableEq κ]

/-- Changes what the table says of `k`. -/
def alter (t : Table κ ν) (k : κ) (f : Option ν → Option ν) : Table κ ν where
  keys := if (f (t.get k)).isSome then insert k t.keys else t.keys.erase k
  get := Function.update t.get k (f (t.get k))
  mem_keys j := by
    by_cases hj : j = k
    · subst hj
      rw [Function.update_self]
      split <;> simp_all
    · rw [Function.update_of_ne hj, ← t.mem_keys]
      split <;> simp [hj]

theorem get_alter (t : Table κ ν) (k j : κ) (f : Option ν → Option ν) :
    (t.alter k f).get j = if j = k then f (t.get k) else t.get j := by
  show Function.update t.get k (f (t.get k)) j = _
  rw [Function.update_apply]

def set (t : Table κ ν) (k : κ) (v : ν) : Table κ ν := t.alter k fun _ => some v

theorem get_set (t : Table κ ν) (k j : κ) (v : ν) :
    (t.set k v).get j = if j = k then some v else t.get j := get_alter t k j _

/-- Changes the value at `k`, if there is one. -/
def modify (t : Table κ ν) (k : κ) (f : ν → ν) : Table κ ν := t.alter k (Option.map f)

theorem get_modify (t : Table κ ν) (k j : κ) (f : ν → ν) :
    (t.modify k f).get j = if j = k then (t.get k).map f else t.get j := get_alter t k j _

/-- Adds what `u` says of keys `t` says nothing of. -/
def orInsert (t u : Table κ ν) : Table κ ν where
  keys := t.keys ∪ u.keys
  get k := (t.get k).or (u.get k)
  mem_keys k := by
    rw [Finset.mem_union, t.mem_keys, u.mem_keys]
    cases t.get k <;> simp

@[simp] theorem get_orInsert (t u : Table κ ν) (k : κ) :
    (t.orInsert u).get k = (t.get k).or (u.get k) := rfl

/-! ## Tallies -/

/-- Counts one more of `k`. -/
def bump (t : Table κ Nat) (k : κ) : Table κ Nat := t.alter k fun count => some (count.getD 0 + 1)

/-- Counts one less of `k`, which goes with its last. -/
def unbump (t : Table κ Nat) (k : κ) : Table κ Nat :=
  t.alter k fun count => count.bind fun n => if n - 1 = 0 then none else some (n - 1)

/-- `t` has the members of `m`, and how often each occurs. -/
def Tallies (t : Table κ Nat) (m : Multiset κ) : Prop :=
  ∀ k, t.get k = if m.count k = 0 then none else some (m.count k)

theorem tallies_empty : Tallies (empty : Table κ Nat) 0 := fun _ => by simp

theorem Tallies.mem_keys {t : Table κ Nat} {m : Multiset κ} (h : t.Tallies m) {k : κ} :
    k ∈ t.keys ↔ k ∈ m := by
  rw [t.mem_keys, h k, ← Multiset.count_pos]
  split <;> simp_all [Nat.pos_iff_ne_zero]

theorem Tallies.keys_eq_empty {t : Table κ Nat} {m : Multiset κ} (h : t.Tallies m) :
    t.keys = ∅ ↔ m = 0 := by
  rw [Finset.eq_empty_iff_forall_notMem, Multiset.eq_zero_iff_forall_notMem]
  exact forall_congr' fun k => not_congr h.mem_keys

theorem Tallies.bump {t : Table κ Nat} {m : Multiset κ} (h : t.Tallies m) (k : κ) :
    (t.bump k).Tallies (k ::ₘ m) := by
  intro j
  rw [Table.bump, get_alter]
  by_cases hj : j = k
  · subst hj
    rw [if_pos rfl, Multiset.count_cons_self, if_neg (Nat.succ_ne_zero _), h j]
    split <;> simp_all
  · rw [if_neg hj, Multiset.count_cons_of_ne hj, h j]

theorem Tallies.unbump {t : Table κ Nat} {m : Multiset κ} {k : κ} (h : t.Tallies (k ::ₘ m)) :
    (t.unbump k).Tallies m := by
  intro j
  rw [Table.unbump, get_alter]
  by_cases hj : j = k
  · subst hj
    rw [if_pos rfl, h j, Multiset.count_cons_self, if_neg (Nat.succ_ne_zero _)]
    rfl
  · rw [if_neg hj, h j, Multiset.count_cons_of_ne hj]

end Table

end Weft
