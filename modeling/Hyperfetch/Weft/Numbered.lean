import Mathlib.Data.List.Nodup
import Mathlib.Tactic

/-!
# Numbered names

Items of which each has names by number, from 1 on: each in turn gets the first of its names
that none before it has. Where an item's names from 2 on differ there is always one left
(`exists_first_free`), and no two items get the same (`Numbered.nodup`).
-/

namespace Weft

variable {α κ : Type*}

/-- `n` is the first number whose name is not taken. -/
structure FirstFree (name : ℕ → κ) (taken : List κ) (n : ℕ) : Prop where
  pos : 1 ≤ n
  free : name n ∉ taken
  before : ∀ m, 1 ≤ m → m < n → name m ∈ taken

theorem FirstFree.unique {name : ℕ → κ} {taken : List κ} {m n : ℕ} (hm : FirstFree name taken m) (hn : FirstFree name taken n) :
    m = n := by
  rcases Nat.lt_trichotomy m n with h | h | h
  · exact absurd (hn.before m hm.pos h) hm.free
  · exact h
  · exact absurd (hm.before n hn.pos h) hn.free

/-- One of so many different names is free. -/
theorem exists_free [DecidableEq κ] {name : ℕ → κ} {taken : List κ}
    (hname : ∀ m n, 2 ≤ m → m ≤ taken.length + 2 → 2 ≤ n → n ≤ taken.length + 2 → name m = name n → m = n) :
    ∃ n, 1 ≤ n ∧ n ≤ taken.length + 2 ∧ name n ∉ taken := by
  by_contra hnone
  push Not at hnone
  -- else the names from 2 on would be more than those that are taken
  have hsub : (Finset.Icc 2 (taken.length + 2)).image name ⊆ taken.toFinset := by
    intro x hx
    obtain ⟨n, hn, rfl⟩ := Finset.mem_image.mp hx
    rw [Finset.mem_Icc] at hn
    exact List.mem_toFinset.mpr (hnone n (by omega) hn.2)
  have hinj : Set.InjOn name (Finset.Icc 2 (taken.length + 2)) := by
    intro m hm n hn heq
    rw [Finset.coe_Icc, Set.mem_Icc] at hm hn
    exact hname m n hm.1 hm.2 hn.1 hn.2 heq
  have hcard := Finset.card_le_card hsub
  rw [Finset.card_image_of_injOn hinj, Nat.card_Icc] at hcard
  have hlength := List.toFinset_card_le taken
  omega

theorem exists_first_free [DecidableEq κ] {name : ℕ → κ} {taken : List κ}
    (hname : ∀ m n, 2 ≤ m → m ≤ taken.length + 2 → 2 ≤ n → n ≤ taken.length + 2 → name m = name n → m = n) :
    ∃ n, n ≤ taken.length + 2 ∧ FirstFree name taken n := by
  have hex : ∃ n, 1 ≤ n ∧ name n ∉ taken := by
    obtain ⟨n, hn, -, hfree⟩ := exists_free hname
    exact ⟨n, hn, hfree⟩
  obtain ⟨n, hn, hle, hfree⟩ := exists_free hname
  obtain ⟨hpos, hfirst⟩ := Nat.find_spec hex
  refine ⟨Nat.find hex, (Nat.find_min' hex ⟨hn, hfree⟩).trans hle, hpos, hfirst, ?_⟩
  intro m hm hlt
  by_contra hfree
  exact Nat.find_min hex hlt ⟨hm, hfree⟩

variable (name : α → ℕ → κ)

/-- The names `keys` that `items` get in turn, beside those already taken. -/
inductive Numbered : List κ → List α → List κ → Prop
  | nil (taken : List κ) : Numbered taken [] []
  | cons {taken : List κ} {a : α} {n : ℕ} {items : List α} {keys : List κ} (first : FirstFree (name a) taken n)
      (rest : Numbered (name a n :: taken) items keys) : Numbered taken (a :: items) (name a n :: keys)

variable {name}

namespace Numbered

variable {taken keys keys' : List κ} {items : List α}

theorem unique (h : Numbered name taken items keys) (h' : Numbered name taken items keys') : keys = keys' := by
  induction h generalizing keys' with
  | nil =>
    cases h'
    rfl
  | cons first rest ih =>
    cases h' with
    | cons first' rest' =>
      obtain rfl := first.unique first'
      rw [ih rest']

theorem length (h : Numbered name taken items keys) : keys.length = items.length := by
  induction h with
  | nil => rfl
  | cons _ _ ih => rw [List.length_cons, List.length_cons, ih]

theorem not_taken (h : Numbered name taken items keys) : ∀ k ∈ keys, k ∉ taken := by
  induction h with
  | nil => simp
  | cons first _ ih =>
    intro k hk
    rcases List.mem_cons.mp hk with rfl | hk
    · exact first.free
    · exact fun hin => ih k hk (List.mem_cons_of_mem _ hin)

/-- No two items get the same name. -/
theorem nodup (h : Numbered name taken items keys) : keys.Nodup := by
  induction h with
  | nil => exact List.nodup_nil
  | cons _ rest ih =>
    refine List.nodup_cons.mpr ⟨?_, ih⟩
    intro hin
    exact rest.not_taken _ hin List.mem_cons_self

/-- What comes after gets other names, and changes none. -/
theorem of_append {a b : List α} (h : Numbered name taken (a ++ b) keys) :
    ∃ before after, keys = before ++ after ∧ Numbered name taken a before ∧ ∀ k ∈ after, k ∉ before := by
  induction a generalizing taken keys with
  | nil => exact ⟨[], keys, rfl, .nil taken, fun _ _ => List.not_mem_nil⟩
  | cons x a ih =>
    have hnodup := h.nodup
    cases h with
    | cons first rest =>
      obtain ⟨before, after, rfl, hbefore, hafter⟩ := ih rest
      refine ⟨_ :: before, after, rfl, .cons first hbefore, ?_⟩
      intro k hk hin
      rcases List.mem_cons.mp hin with rfl | hin
      · exact (List.nodup_cons.mp hnodup).1 (List.mem_append_right _ hk)
      · exact hafter k hk hin

end Numbered

end Weft
