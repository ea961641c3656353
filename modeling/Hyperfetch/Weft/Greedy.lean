import Mathlib.Data.List.Basic

/-!
# Picking the first that can go, again and again

A loop looks through a list of candidates from its start, takes the first that
is ready, does its step and looks again. Where a step makes nothing ready and
leaves what it took not ready (`Greedy`), the loop is one pass over the list
(`rounds_eq_sweep`): what was passed over need not be looked at again.
-/

namespace Weft

section

variable {σ κ : Type} (pick : σ → Option κ) (ready : σ → κ → Bool) (step : σ → κ → σ)

/-- The loop, for at most so many rounds: what was picked, each with the state it
was picked in, and the state left. -/
def rounds : Nat → σ → List (σ × κ) × σ
  | 0, s => ([], s)
  | n + 1, s =>
    match pick s with
    | none => ([], s)
    | some k => ((s, k) :: (rounds n (step s k)).1, (rounds n (step s k)).2)

/-- One pass. -/
def sweep : List κ → σ → List (σ × κ) × σ
  | [], s => ([], s)
  | k :: rest, s =>
    if ready s k then ((s, k) :: (sweep rest (step s k)).1, (sweep rest (step s k)).2) else sweep rest s

/-- The candidates are gone through in one order, in every state `Inv` holds of. -/
structure Greedy (order : List κ) (Inv : σ → Prop) : Prop where
  pick_eq : ∀ {s}, Inv s → pick s = order.find? (ready s)
  keeps : ∀ {s} {k}, Inv s → ready s k = true → Inv (step s k)
  spent : ∀ {s} {k}, Inv s → ready s k = true → ready (step s k) k = false
  antitone : ∀ {s} {k} {j}, Inv s → ready s k = true → ready s j = false → ready (step s k) j = false

variable {pick ready step}

theorem rounds_picked {n : Nat} {s : σ} {turn : σ × κ} (h : turn ∈ (rounds pick step n s).1) :
    pick turn.1 = some turn.2 := by
  induction n generalizing s with
  | zero => simp [rounds] at h
  | succ n ih =>
    rw [rounds] at h
    cases hp : pick s with
    | none => simp [hp] at h
    | some k =>
      simp only [hp, List.mem_cons] at h
      rcases h with rfl | h
      · exact hp
      · exact ih h

/-- The state left is the picked ones' steps. -/
theorem rounds_foldl (n : Nat) (s : σ) :
    (rounds pick step n s).2 = ((rounds pick step n s).1.map (·.2)).foldl step s := by
  induction n generalizing s with
  | zero => rfl
  | succ n ih =>
    rw [rounds]
    cases pick s with
    | none => rfl
    | some k => exact ih (step s k)

theorem rounds_keep {Inv : σ → Prop} (hstep : ∀ s k, Inv s → pick s = some k → Inv (step s k)) {n : Nat} {s : σ} (hs : Inv s) :
    Inv (rounds pick step n s).2 := by
  induction n generalizing s with
  | zero => exact hs
  | succ n ih =>
    rw [rounds]
    cases hp : pick s with
    | none => exact hs
    | some k => exact ih (hstep s k hs hp)

theorem sweep_sublist (order : List κ) (s : σ) : ((sweep ready step order s).1.map (·.2)).Sublist order := by
  induction order generalizing s with
  | nil => exact List.Sublist.slnil
  | cons k rest ih =>
    rw [sweep]
    split
    · exact (ih (step s k)).cons_cons k
    · exact (ih s).cons k

namespace Greedy

variable {order : List κ} {Inv : σ → Prop}

/-- What holds of the state is kept, and what is not ready stays so. -/
theorem sweep_keeps (g : Greedy pick ready step order Inv) {rest : List κ} {s : σ} (hs : Inv s) :
    Inv (sweep ready step rest s).2 ∧
      ∀ j, ready s j = false → ready (sweep ready step rest s).2 j = false := by
  induction rest generalizing s with
  | nil => exact ⟨hs, fun _ hj => hj⟩
  | cons k rest ih =>
    rw [sweep]
    split
    next hk =>
      obtain ⟨hinv, hkept⟩ := ih (g.keeps hs hk)
      exact ⟨hinv, fun j hj => hkept j (g.antitone hs hk hj)⟩
    next => exact ih hs

/-- After the pass no candidate is ready. -/
theorem sweep_done (g : Greedy pick ready step order Inv) {rest : List κ} {s : σ} (hs : Inv s) :
    ∀ j ∈ rest, ready (sweep ready step rest s).2 j = false := by
  induction rest generalizing s with
  | nil => intro j hj; simp at hj
  | cons k rest ih =>
    intro j hj
    rw [sweep]
    split
    next hk =>
      rcases List.mem_cons.mp hj with rfl | hj
      · exact (g.sweep_keeps (g.keeps hs hk)).2 j (g.spent hs hk)
      · exact ih (g.keeps hs hk) j hj
    next hk =>
      rcases List.mem_cons.mp hj with rfl | hj
      · exact (g.sweep_keeps hs).2 j (Bool.eq_false_iff.mpr hk)
      · exact ih hs j hj

/-- The loop is the pass: nothing before the place it has come to is ready. -/
theorem rounds_eq_sweep_from (g : Greedy pick ready step order Inv) {gone rest : List κ} {s : σ} {n : Nat}
    (hs : Inv s) (horder : order = gone ++ rest) (hgone : ∀ j ∈ gone, ready s j = false) (hn : rest.length ≤ n) :
    rounds pick step n s = sweep ready step rest s := by
  induction rest generalizing gone s n with
  | nil =>
    have hnone : pick s = none := by
      rw [g.pick_eq hs, horder, List.append_nil, List.find?_eq_none]
      exact fun j hj => by simp [hgone j hj]
    cases n with
    | zero => rfl
    | succ n => simp [rounds, hnone, sweep]
  | cons k rest ih =>
    have horder' : order = (gone ++ [k]) ++ rest := by simp [horder]
    rw [sweep]
    split
    next hk =>
      cases n with
      | zero => simp at hn
      | succ n =>
        have hpick : pick s = some k := by
          rw [g.pick_eq hs, horder, List.find?_append, List.find?_eq_none.mpr fun j hj => by simp [hgone j hj]]
          simp [hk]
        -- what was not ready still is not, and neither is what was just taken
        have hnext : ∀ j ∈ gone ++ [k], ready (step s k) j = false := by
          intro j hj
          rcases List.mem_append.mp hj with hj | hj
          · exact g.antitone hs hk (hgone j hj)
          · rw [List.mem_singleton.mp hj]
            exact g.spent hs hk
        rw [rounds, hpick]
        simp only [ih (g.keeps hs hk) horder' hnext (Nat.le_of_succ_le_succ hn)]
    next hk =>
      refine ih hs horder' (fun j hj => ?_) (Nat.le_of_succ_le hn)
      rcases List.mem_append.mp hj with hj | hj
      · exact hgone j hj
      · rw [List.mem_singleton.mp hj]
        exact Bool.eq_false_iff.mpr hk

theorem rounds_eq_sweep (g : Greedy pick ready step order Inv) {s : σ} {n : Nat} (hs : Inv s)
    (hn : order.length ≤ n) : rounds pick step n s = sweep ready step order s :=
  g.rounds_eq_sweep_from hs (List.nil_append order).symm (fun _ hj => absurd hj (List.not_mem_nil)) hn

/-- The loop ends: no round is left to do. -/
theorem rounds_done (g : Greedy pick ready step order Inv) {s : σ} {n : Nat} (hs : Inv s) (hn : order.length ≤ n) :
    pick (rounds pick step n s).2 = none := by
  rw [g.rounds_eq_sweep hs hn, g.pick_eq (g.sweep_keeps hs).1, List.find?_eq_none]
  exact fun j hj => by simp [g.sweep_done hs j hj]

/-- What is picked is picked in the candidates' order. -/
theorem rounds_sublist (g : Greedy pick ready step order Inv) {s : σ} {n : Nat} (hs : Inv s)
    (hn : order.length ≤ n) : ((rounds pick step n s).1.map (·.2)).Sublist order := by
  rw [g.rounds_eq_sweep hs hn]
  exact sweep_sublist order s

/-- Every state a round begins in is one `Inv` holds of. -/
theorem rounds_inv (g : Greedy pick ready step order Inv) {s : σ} {n : Nat} (hs : Inv s) {turn : σ × κ}
    (h : turn ∈ (rounds pick step n s).1) : Inv turn.1 := by
  induction n generalizing s with
  | zero => simp [rounds] at h
  | succ n ih =>
    rw [rounds] at h
    cases hp : pick s with
    | none => simp [hp] at h
    | some k =>
      have hk : ready s k = true := by
        rw [g.pick_eq hs] at hp
        exact List.find?_some hp
      simp only [hp, List.mem_cons] at h
      rcases h with rfl | h
      · exact hs
      · exact ih (g.keeps hs hk) h

end Greedy

end

end Weft
