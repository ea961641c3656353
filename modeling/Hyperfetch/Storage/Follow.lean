import Hyperfetch.Storage.Rehash
import Mathlib.Tactic

/-!
# Reading while others write (`storage.rs`)

The prefix hasher and blocks hashed back read what calls may be writing. What
they read wrong is of a block written since, or below where the prefix hasher
said it had read.
-/

namespace Hyperfetch

open Weft

namespace Storage

variable {D X H : Type} [DecidableEq X] {L : Layout D X H} {s s' : State D X}

omit [DecidableEq X] in
/-- Only the prefix hasher moved. -/
theorem Sound.withFollower (h : Sound L s) {f : Option (Follower X)} {followed : Nat} {stopped : Bool}
    (hf : ∀ g ∈ f, State.Follows L { s with follower := f, followed, stopped } g) :
    Sound L { s with follower := f, followed, stopped } := by
  have hcalm : Passes L s { s with follower := f, followed, stopped } :=
    passes_of_calm rfl (fun _ => rfl) rfl fun _ hb => hb
  exact h.pass hcalm h.within (fun i => .inl rfl) (fun w hw => .inl hw) h.agree (fun g hg => .inr (hf g hg))
    fun c hc => .inl hc

omit [DecidableEq X] in
theorem followEnd_le (h : Sound L s) (len : Nat) : s.followEnd L len ≤ L.size := by
  have hstarts := writtenPrefix_le h.within
  have hmin : min (writtenPrefix s.written) (len + max followStep L.block) ≤ L.size :=
    (Nat.min_le_left _ _).trans hstarts
  have hend : s.followEnd L len =
      if min (writtenPrefix s.written) (len + max followStep L.block) < L.size then
        min (writtenPrefix s.written) (len + max followStep L.block) -
          min (writtenPrefix s.written) (len + max followStep L.block) % L.block
      else min (writtenPrefix s.written) (len + max followStep L.block) := rfl
  rw [hend]
  split
  · exact (Nat.sub_le _ _).trans hmin
  · exact hmin

omit [DecidableEq X] in
theorem claim_unhashed {start stop : Nat} {p : Nat × Nat} (hp : p ∈ s.unhashed L start stop) :
    s.Claim L p.1 p.2 fun _ => none := by
  obtain ⟨i, _, rfl⟩ := List.mem_map.mp hp
  exact ⟨le_rfl, fun _ => freshIn_none _ _ _⟩

theorem Sound.look (h : Sound L s) (hstep : s.step L .look = some s') : Sound L s' := by
  simp only [State.step] at hstep
  split at hstep
  · rename_i algo bytes hf
    have hfollows := h.follows _ hf
    split at hstep
    · cases hstep
      refine h.withFollower fun g hg => ?_
      rw [Option.mem_some] at hg
      subst hg
      exact ⟨hfollows.len_le, hfollows.len_followed, hfollows.front, fun _ _ _ hphase => nomatch hphase⟩
    · split at hstep
      · rename_i hlt
        cases hstep
        refine h.withFollower fun g hg => ?_
        rw [Option.mem_some] at hg
        subst hg
        refine ⟨hfollows.len_le, hlt.le, hfollows.front, ?_⟩
        rintro _ _ _ ⟨⟩
        refine ⟨⟨hlt.le, followEnd_le h _, le_rfl⟩, fun _ => freshIn_none _ _ _, fun p hp => ?_⟩
        have hclaim := claim_unhashed hp
        exact ⟨hclaim.le, hclaim.fresh⟩
      · cases hstep
  · cases hstep

theorem Sound.followRead {b : Nat} (h : Sound L s) (hstep : s.step L (.followRead b) = some s') : Sound L s' := by
  simp only [State.step] at hstep
  split at hstep
  · rename_i algo bytes stop unhashed seen hf
    split at hstep
    · cases hstep
      obtain ⟨hlen, hfollowed, hfront, hreading⟩ := h.follows _ hf
      obtain ⟨hstop, hfresh, hclaims⟩ := hreading _ _ _ rfl
      refine h.withFollower fun g hg => ?_
      rw [Option.mem_some] at hg
      subst hg
      refine ⟨hlen, hfollowed, hfront, ?_⟩
      rintro _ _ _ ⟨⟩
      refine ⟨hstop, fun hre => (hfresh hre).read b, fun p hp => ?_⟩
      exact ⟨(hclaims p hp).le, fun hv => ((hclaims p hp).fresh hv).read b⟩
    · cases hstep
  · cases hstep

theorem Sound.followKeep (h : Sound L s) (hpatient : s.Patient) (hstep : s.step L .followKeep = some s') :
    Sound L s' := by
  simp only [State.step] at hstep
  split at hstep
  · rename_i algo bytes stop p unhashed seen hf
    split at hstep
    · rename_i hsaw
      cases hstep
      obtain ⟨hlen, hfollowed, hfront, hreading⟩ := h.follows _ hf
      obtain ⟨hstop, hfresh, hclaims⟩ := hreading _ _ _ rfl
      have hmoved : Sound L { s with follower := some ⟨algo, bytes, .reading stop unhashed seen⟩ } := by
        refine h.withFollower fun g hg => ?_
        rw [Option.mem_some] at hg
        subst hg
        refine ⟨hlen, hfollowed, hfront, ?_⟩
        rintro _ _ _ ⟨⟩
        refine ⟨hstop, hfresh, fun q hq => ?_⟩
        have hclaim := hclaims q (List.mem_cons_of_mem _ hq)
        exact ⟨hclaim.le, hclaim.fresh⟩
      refine (hmoved.hashRead _ _ _ fun q hq _ hsame => ?_).1
      rw [List.mem_singleton] at hq
      subst hq
      have hflight := mem_inFlight_unhashed hf (p := q) List.mem_cons_self
      exact ((hclaims q List.mem_cons_self).freshIn hpatient hflight hsame).seen hsaw
    · cases hstep
  · cases hstep

theorem Sound.followOn (h : Sound L s) (hstep : s.step L .followOn = some s') : Sound L s' := by
  simp only [State.step] at hstep
  split at hstep
  · rename_i algo bytes stop seen hf
    split at hstep
    · rename_i hsaw
      cases hstep
      obtain ⟨_, _, hfront, hreading⟩ := h.follows _ hf
      obtain ⟨⟨hlen, hsize, hstop⟩, hfresh, _⟩ := hreading _ _ _ rfl
      have hlength : (bytes ++ seenBytes seen bytes.length stop).length = stop := by
        rw [List.length_append, length_seenBytes]
        show bytes.length + (stop - bytes.length) = stop
        exact Nat.add_sub_cancel' hlen
      refine h.withFollower fun g hg => ?_
      rw [Option.mem_some] at hg
      subst hg
      refine ⟨hlength.trans_le hsize, hlength.trans_le hstop, fun hre => ?_, fun _ _ _ hphase => nomatch hphase⟩
      have hold : s.FreshIn 0 (0 + bytes.length) (placed 0 bytes) := by
        rw [Nat.zero_add]
        exact hfront hre
      have hread : s.FreshIn 0 stop (placed (0 + bytes.length) (seenBytes seen bytes.length stop)) := by
        rw [Nat.zero_add]
        exact (hfresh hre).seen hsaw
      show s.FreshIn 0 (bytes ++ seenBytes seen bytes.length stop).length _
      rw [hlength]
      exact hold.widen.append hread
    · cases hstep
  · cases hstep

theorem Sound.followFail (h : Sound L s) (hstep : s.step L .followFail = some s') : Sound L s' := by
  simp only [State.step] at hstep
  split at hstep
  · rename_i algo bytes stop unhashed seen hf
    cases hstep
    have hfollows := h.follows _ hf
    refine h.withFollower fun g hg => ?_
    rw [Option.mem_some] at hg
    subst hg
    exact ⟨hfollows.len_le, hfollows.len_followed, hfollows.front, fun _ _ _ hphase => nomatch hphase⟩
  · cases hstep

theorem Sound.stop (h : Sound L s) (hstep : s.step L .stop = some s') : Sound L s' := by
  cases hstep
  refine h.withFollower fun g hg => ?_
  obtain ⟨hlen, hfollowed, hfront, hreading⟩ := h.follows g hg
  refine ⟨hlen, hfollowed, hfront, fun stop unhashed seen hphase => ?_⟩
  obtain ⟨hstop, hfresh, hclaims⟩ := hreading stop unhashed seen hphase
  exact ⟨hstop, hfresh, fun p hp => ⟨(hclaims p hp).le, (hclaims p hp).fresh⟩⟩

/-! ## Blocks hashed back -/

omit [DecidableEq X] in
theorem Sound.withScans (h : Sound L s) {scans : List Scan}
    (hscans : ∀ c ∈ scans, c ∈ s.scans ∨ s.Claim L c.block c.version c.seen) :
    Sound L { s with scans } := by
  have hcalm : Passes L s { s with scans } := passes_of_calm rfl (fun _ => rfl) rfl fun _ hb => hb
  refine h.pass hcalm h.within (fun i => .inl rfl) (fun w hw => .inl hw) h.agree (fun g hg => .inl ⟨hg, rfl⟩) ?_
  intro c hc
  exact (hscans c hc).imp id fun hclaim => ⟨hclaim.le, hclaim.fresh⟩

theorem Sound.scan {i : Nat} (h : Sound L s) (hstep : s.step L (.scan i) = some s') : Sound L s' := by
  cases hstep
  refine h.withScans fun c hc => ?_
  rcases List.mem_append.mp hc with hc | hc
  · exact .inl hc
  · rw [List.mem_singleton] at hc
    subst hc
    exact .inr ⟨le_rfl, fun _ => freshIn_none _ _ _⟩

theorem Sound.scanRead {n b : Nat} (h : Sound L s) (hstep : s.step L (.scanRead n b) = some s') : Sound L s' := by
  simp only [State.step] at hstep
  split at hstep
  · rename_i i version seen hn
    cases hstep
    have hclaim := h.scans _ (List.mem_of_getElem? hn)
    refine h.withScans fun c hc => ?_
    rcases List.mem_or_eq_of_mem_set hc with hc | rfl
    · exact .inl hc
    · exact .inr ⟨hclaim.le, fun hv => (hclaim.fresh hv).read b⟩
  · cases hstep

theorem Sound.scanKeep {n : Nat} (h : Sound L s) (hpatient : s.Patient) (hstep : s.step L (.scanKeep n) = some s') :
    Sound L s' := by
  simp only [State.step] at hstep
  split at hstep
  · rename_i i version seen hn
    split at hstep
    · rename_i hsaw
      cases hstep
      have hmem := List.mem_of_getElem? hn
      have hclaim := h.scans _ hmem
      have hmoved : Sound L { s with scans := s.scans.eraseIdx n } :=
        h.withScans fun c hc => .inl (List.mem_of_mem_eraseIdx hc)
      refine hmoved.keepHash (length_seenBytes _ _ _) fun hsame => ?_
      exact (hclaim.freshIn hpatient (mem_inFlight_scan hmem) hsame).seen hsaw
    · cases hstep
  · cases hstep

end Storage

end Hyperfetch
