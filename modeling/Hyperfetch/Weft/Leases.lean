import Mathlib.Data.List.Nodup
import Mathlib.Logic.Function.Basic

/-!
# Leases

Each key has at most one holder, and a list tells of every holding, the keys with
their holders: `Leases` says that the two agree and that no holder is twice in the
list. A key is let to a new holder, and given back, one at a time.
-/

namespace Weft

open Function

section

variable {κ ρ : Type}

/-- `holder` gives each key its holder, and `out` lists just these. -/
structure Leases (holder : κ → Option ρ) (out : List (ρ × κ)) : Prop where
  once : (out.map Prod.fst).Nodup
  held : ∀ k r, holder k = some r ↔ (r, k) ∈ out

namespace Leases

variable {holder : κ → Option ρ} {out : List (ρ × κ)}

theorem nil : Leases (fun _ : κ => (none : Option ρ)) [] where
  once := List.nodup_nil
  held k r := by simp

/-- A key has one holder. -/
theorem unique (h : Leases holder out) {k : κ} {r r' : ρ} (hr : (r, k) ∈ out) (hr' : (r', k) ∈ out) : r = r' := by
  have heq := (h.held k r).mpr hr
  rw [(h.held k r').mpr hr'] at heq
  exact (Option.some.inj heq).symm

/-- So no key is twice in the list. -/
theorem keys_nodup (h : Leases holder out) : (out.map Prod.snd).Nodup := by
  have hout : out.Nodup := h.once.of_map Prod.fst
  refine (List.nodup_map_iff_inj_on hout).mpr ?_
  rintro ⟨r, k⟩ hr ⟨r', k'⟩ hr' hk
  obtain rfl : k = k' := hk
  rw [h.unique hr hr']

theorem perm {out' : List (ρ × κ)} (h : Leases holder out) (hperm : out.Perm out') : Leases holder out' where
  once := (hperm.map Prod.fst).nodup_iff.mp h.once
  held k r := by rw [h.held, hperm.mem_iff]

variable [DecidableEq κ]

/-- A key that is free is let to a holder that has none. -/
theorem issue (h : Leases holder out) {k : κ} {r : ρ} (hfree : holder k = none) (hnew : r ∉ out.map Prod.fst) :
    Leases (update holder k (some r)) ((r, k) :: out) where
  once := by
    rw [List.map_cons, List.nodup_cons]
    exact ⟨hnew, h.once⟩
  held j q := by
    have hnone : ∀ q, (q, k) ∉ out := by
      intro q hq
      have hheld := (h.held k q).mpr hq
      rw [hfree] at hheld
      cases hheld
    rw [List.mem_cons, Prod.mk.injEq]
    rcases eq_or_ne j k with rfl | hne
    · rw [update_self]
      simp [hnone q, eq_comm]
    · rw [update_of_ne hne, h.held]
      simp [hne]

/-- A key is given back. -/
theorem back {k : κ} {r : ρ} (h : Leases holder ((r, k) :: out)) : Leases (update holder k none) out where
  once := (List.nodup_cons.mp h.once).2
  held j q := by
    rcases eq_or_ne j k with rfl | hne
    · rw [update_self]
      constructor
      · intro hnone
        cases hnone
      · intro hq
        -- it would be the same holder, which is not twice in the list
        have hsame := h.unique List.mem_cons_self (List.mem_cons_of_mem _ hq)
        have hfst := (List.nodup_cons.mp h.once).1
        rw [hsame] at hfst
        exact absurd (List.mem_map_of_mem hq) hfst
    · rw [update_of_ne hne, h.held, List.mem_cons, Prod.mk.injEq]
      simp [hne]

end Leases

end

end Weft
