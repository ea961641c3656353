import Mathlib.Data.List.Chain

/-!
# Logs kept newest first

A log takes entries at its head, so the entries older than one are its tail.
`AtEach P log` says `P` of every entry and those older; an entry appended keeps
what holds of the others (`atEach_cons`).
-/

namespace Weft

universe u

variable {α : Type u}

/-- `P` holds of every entry with those older than it. -/
def AtEach (P : α → List α → Prop) (log : List α) : Prop :=
  ∀ x older, x :: older <:+ log → P x older

variable {P Q : α → List α → Prop} {log older older' : List α} {x y : α}

@[simp] theorem atEach_nil : AtEach P [] := by
  intro x older h
  simp at h

@[simp] theorem atEach_cons : AtEach P (x :: log) ↔ P x log ∧ AtEach P log := by
  constructor
  · intro h
    refine ⟨h x log List.suffix_rfl, ?_⟩
    intro y older hy
    exact h y older (hy.trans (List.suffix_cons x log))
  · rintro ⟨hx, hlog⟩ y older hy
    rcases List.suffix_cons_iff.mp hy with hy | hy
    · cases hy
      exact hx
    · exact hlog y older hy

theorem AtEach.imp (h : AtEach P log) (himp : ∀ x older, P x older → Q x older) : AtEach Q log := by
  intro x older hx
  apply himp
  exact h x older hx

/-- Where each entry not marked `stop` ranks above the one before it, a run of
entries none of which but the oldest is marked has its ranks falling, each above
all older ones. -/
theorem AtEach.falls {rank : α → Nat} {stop : α → Prop}
    (h : AtEach (fun x older => stop x ∨ ∀ y ∈ older.head?, rank y < rank x) log) {run : List α} {first : α}
    (hrun : run ++ first :: older <:+ log) (hstop : ∀ x ∈ run, ¬ stop x) :
    ((run ++ [first]).map rank).Pairwise (· > ·) := by
  rw [← List.isChain_iff_pairwise]
  induction run with
  | nil => simp
  | cons x run ih =>
    have hchain := ih ((List.suffix_cons x _).trans hrun) (fun y hy => hstop y (List.mem_cons_of_mem _ hy))
    have habove : ∀ y ∈ (run ++ first :: older).head?, rank y < rank x := by
      rcases h x _ hrun with hx | hx
      · exact absurd hx (hstop x List.mem_cons_self)
      · exact hx
    cases run with
    | nil => simpa using habove first
    | cons y run =>
      simp only [List.cons_append, List.map_cons, List.isChain_cons_cons] at hchain ⊢
      refine ⟨?_, hchain⟩
      apply habove
      simp

/-- Where the log's size never falls, two entries that made it grow from the same
size are the same. -/
theorem entry_unique {size : List α → Nat} (hmono : ∀ x older, size older ≤ size (x :: older))
    (hx : x :: older <:+ log) (hy : y :: older' <:+ log) (hgrowx : size older < size (x :: older))
    (hgrowy : size older' < size (y :: older')) (hsame : size older = size older') :
    x :: older = y :: older' := by
  have hle : ∀ {short long : List α}, short <:+ long → size short ≤ size long := by
    rintro short _ ⟨front, rfl⟩
    induction front with
    | nil => exact Nat.le_refl _
    | cons z front ih => exact ih.trans (hmono z _)
  rcases List.suffix_or_suffix_of_suffix hx hy with h | h
  · rcases List.suffix_cons_iff.mp h with h | h
    · exact h
    · have := hle h
      omega
  · rcases List.suffix_cons_iff.mp h with h | h
    · exact h.symm
    · have := hle h
      omega

end Weft
