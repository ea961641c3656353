import Mathlib.Order.Lattice
import Mathlib.Data.Set.Basic

/-!
# Spans that are joined

A span has a key and goes from its start to its end. `reach` says how far
behind its end another of its key may start for the two to be one. A join of
some spans is a family of spans too far apart to be joined, that covers them
and that every other such family covers. There is at most one
(`JoinOf.unique`).
-/

namespace Weft

structure Span (κ τ : Type*) where
  key : κ
  start : τ
  fin : τ
  deriving DecidableEq, Repr

namespace Span

variable {κ τ : Type*} [LinearOrder τ]

/-- `a` is a part of `b`. -/
def Within (a b : Span κ τ) : Prop := a.key = b.key ∧ b.start ≤ a.start ∧ a.fin ≤ b.fin

theorem Within.refl (a : Span κ τ) : a.Within a := ⟨rfl, le_refl _, le_refl _⟩

theorem Within.trans {a b c : Span κ τ} (hab : a.Within b) (hbc : b.Within c) : a.Within c :=
  ⟨hab.1.trans hbc.1, hbc.2.1.trans hab.2.1, hab.2.2.trans hbc.2.2⟩

theorem Within.antisymm {a b : Span κ τ} (hab : a.Within b) (hba : b.Within a) : a = b := by
  obtain ⟨hkey, hstart, hfin⟩ := hab
  obtain ⟨_, hstart', hfin'⟩ := hba
  cases a
  cases b
  cases hkey
  cases le_antisymm hstart hstart'
  cases le_antisymm hfin hfin'
  rfl

/-- Every span of `S` is within one of `F`. -/
def Covers (F S : Set (Span κ τ)) : Prop := ∀ a ∈ S, ∃ b ∈ F, a.Within b

variable (reach : τ → τ)

/-- Two spans of one key are the same, or one starts out of the other's reach. -/
def Apart (F : Set (Span κ τ)) : Prop :=
  ∀ a ∈ F, ∀ b ∈ F, a.key = b.key → a = b ∨ reach a.fin < b.start ∨ reach b.fin < a.start

/-- `F` is what joining the spans of `S` gives. -/
structure JoinOf (S F : Set (Span κ τ)) : Prop where
  apart : Apart reach F
  covers : Covers F S
  least : ∀ G, Apart reach G → Covers G S → Covers G F

section Reach

variable {reach} (le_reach : ∀ t, t ≤ reach t)
include le_reach

/-- Of spans that are apart, none is a part of another. -/
theorem Apart.eq_of_within {F : Set (Span κ τ)} (h : Apart reach F) {a b : Span κ τ} (ha : a ∈ F) (hb : b ∈ F)
    (hab : a.Within b) (hspan : a.start ≤ a.fin) : a = b := by
  obtain ⟨hkey, hstart, hfin⟩ := hab
  rcases h a ha b hb hkey with heq | hlt | hlt
  · exact heq
  · have hback : b.start ≤ reach a.fin := (hstart.trans hspan).trans (le_reach _)
    exact absurd hback (not_le_of_gt hlt)
  · have hback : a.start ≤ reach b.fin := (hspan.trans hfin).trans (le_reach _)
    exact absurd hback (not_le_of_gt hlt)

theorem JoinOf.subset {S F G : Set (Span κ τ)} (hF : JoinOf reach S F) (hG : JoinOf reach S G)
    (hspan : ∀ a ∈ F, a.start ≤ a.fin) : F ⊆ G := by
  intro a ha
  obtain ⟨b, hb, hab⟩ := hF.least G hG.apart hG.covers a ha
  obtain ⟨c, hc, hbc⟩ := hG.least F hF.apart hF.covers b hb
  have hac : a = c := hF.apart.eq_of_within le_reach ha hc (hab.trans hbc) (hspan a ha)
  rw [hab.antisymm (hac ▸ hbc)]
  exact hb

/-- There is one join only. -/
theorem JoinOf.unique {S F G : Set (Span κ τ)} (hF : JoinOf reach S F) (hG : JoinOf reach S G)
    (hFspan : ∀ a ∈ F, a.start ≤ a.fin) (hGspan : ∀ a ∈ G, a.start ≤ a.fin) : F = G :=
  Set.Subset.antisymm (hF.subset le_reach hG hFspan) (hG.subset le_reach hF hGspan)

/-- A family that covers a span, and one that starts within its reach, covers
the two made one. -/
theorem Apart.within_joined {G : Set (Span κ τ)} (h : Apart reach G) (hmono : Monotone reach) {a c : Span κ τ}
    (hkey : a.key = c.key) (hstart : a.start ≤ c.start) (hreach : c.start ≤ reach a.fin) (hspan : c.start ≤ c.fin)
    {f g : Span κ τ} (hf : f ∈ G) (haf : a.Within f) (hg : g ∈ G) (hcg : c.Within g) :
    Span.Within { a with fin := max a.fin c.fin } f := by
  obtain ⟨hakey, hastart, hafin⟩ := haf
  obtain ⟨hckey, hcstart, hcfin⟩ := hcg
  have hfg : f = g := by
    rcases h f hf g hg ((hakey.symm.trans hkey).trans hckey) with heq | hlt | hlt
    · exact heq
    · exact absurd ((hcstart.trans hreach).trans (hmono hafin)) (not_le_of_gt hlt)
    · have hback : f.start ≤ g.fin := ((hastart.trans hstart).trans hspan).trans hcfin
      exact absurd (hback.trans (le_reach _)) (not_le_of_gt hlt)
  subst hfg
  exact ⟨hakey, hastart, max_le hafin hcfin⟩

end Reach

end Span

end Weft
