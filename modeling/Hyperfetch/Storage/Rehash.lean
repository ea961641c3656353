import Hyperfetch.Storage.Sound
import Mathlib.Tactic

/-!
# Hashes of blocks read (`storage.rs`)

A hash is kept of what was read of a block, unless the block's version moved
on. Versions wrap around, so that tells all writes apart only as long as fewer
than `2 ^ 32` come while the hash is taken.
-/

namespace Hyperfetch

open Weft

namespace Storage

variable {D X H : Type} {L : Layout D X H} {s s' s'' : State D X}

/-- Only hashes and heads differ. -/
structure Rehashed (s s' : State D X) : Prop where
  same : s' = { s with blocks := s'.blocks }
  version : ∀ i, (s'.blocks i).version = (s.blocks i).version

theorem Rehashed.refl (s : State D X) : Rehashed s s := ⟨rfl, fun _ => rfl⟩

theorem Rehashed.trans (h : Rehashed s s') (h' : Rehashed s' s'') : Rehashed s s'' := by
  refine ⟨?_, fun i => (h'.version i).trans (h.version i)⟩
  rw [h'.same, h.same]

theorem Rehashed.file (h : Rehashed s s') : s'.file = s.file := by rw [h.same]

theorem Rehashed.writes (h : Rehashed s s') : s'.writes = s.writes := by rw [h.same]

theorem Rehashed.freshIn (h : Rehashed s s') {lo hi : Nat} {known : Nat → Option UInt8}
    (hfresh : s.FreshIn lo hi known) : s'.FreshIn lo hi known := by
  intro b hlo hhi x hx
  rw [h.writes, h.file]
  exact hfresh b hlo hhi x hx

theorem Rehashed.contents (h : Rehashed s s') (start stop : Nat) : s'.contents start stop = s.contents start stop := by
  rw [State.contents, State.contents, h.file]

theorem Rehashed.passes (h : Rehashed s s') : Passes L s s' := by
  refine passes_of_calm h.file h.version ?_ fun b hb => ?_
  · rw [h.same]
  · rw [h.writes]
    exact hb

theorem Sound.rehash (h : Sound L s) (hr : Rehashed s s')
    (kept : ∀ i, s'.blocks i = s.blocks i ∨ s'.Kept L i) : Sound L s' := by
  have hsame := hr.same
  refine h.pass hr.passes ?_ kept ?_ ?_ ?_ ?_
  · rw [hsame]
    exact h.within
  · rw [hsame]
    exact fun w hw => .inl hw
  · rw [hsame]
    exact h.agree
  · rw [hsame]
    exact fun f hf => .inl ⟨hf, rfl⟩
  · rw [hsame]
    exact fun c hc => .inl hc

theorem rehashed_keepHash (s : State D X) (i version : Nat) (hash : D) : Rehashed s (s.keepHash i version hash) := by
  unfold State.keepHash
  split
  · refine ⟨rfl, fun j => ?_⟩
    show (Function.update s.blocks i { s.blocks i with hash := some hash } j).version = (s.blocks j).version
    by_cases hj : j = i
    · subst hj
      rw [Function.update_self]
    · rw [Function.update_of_ne hj]
  · exact .refl s

/-- A block's hash may be kept if it is of the block's bytes. -/
theorem Sound.keepHash (h : Sound L s) {i version : Nat} {bytes : List UInt8}
    (hlen : bytes.length = L.stop i - L.start i)
    (hfresh : sameVersion (s.blocks i).version version = true →
      s.FreshIn (L.start i) (L.stop i) (placed (L.start i) bytes)) :
    Sound L (s.keepHash i version (L.hashBlock i bytes)) := by
  have hr := rehashed_keepHash s i version (L.hashBlock i bytes)
  refine h.rehash hr fun j => ?_
  by_cases hsame : sameVersion (s.blocks i).version version = true
  · by_cases hj : j = i
    · subst hj
      have hblock : (s.keepHash j version (L.hashBlock j bytes)).blocks j =
          { s.blocks j with hash := some (L.hashBlock j bytes) } := by
        rw [State.keepHash, if_pos hsame]
        exact Function.update_self _ _ _
      refine .inr ⟨fun d hd => ?_, fun head hh => ?_⟩
      · rw [hblock, Option.mem_some] at hd
        exact ⟨bytes, hlen, hd.symm, hr.freshIn (hfresh hsame)⟩
      · rw [hblock] at hh
        obtain ⟨hfits, hhead⟩ := (h.kept j).head head hh
        exact ⟨hfits, hr.freshIn hhead⟩
    · left
      rw [State.keepHash, if_pos hsame]
      exact Function.update_of_ne hj _ _
  · left
    rw [State.keepHash, if_neg hsame]

/-- Blocks that lie in a stretch read may be hashed from it. -/
theorem Sound.hashRead (h : Sound L s) (unhashed : List (Nat × Nat)) (start : Nat) (data : List UInt8)
    (hfresh : ∀ p ∈ unhashed, start ≤ L.start p.1 → sameVersion (s.blocks p.1).version p.2 = true →
      s.FreshIn (L.start p.1) (L.stop p.1) (placed start data)) :
    Sound L (s.hashRead L unhashed start data) ∧ Rehashed s (s.hashRead L unhashed start data) := by
  unfold State.hashRead
  have hin : ∀ p ∈ unhashed.filter fun p => decide (start ≤ L.start p.1 ∧ L.stop p.1 ≤ start + data.length),
      p ∈ unhashed ∧ start ≤ L.start p.1 ∧ L.stop p.1 ≤ start + data.length := by
    intro p hp
    obtain ⟨hmem, hin⟩ := List.mem_filter.mp hp
    exact ⟨hmem, of_decide_eq_true hin⟩
  generalize (unhashed.filter fun p => decide (start ≤ L.start p.1 ∧ L.stop p.1 ≤ start + data.length)) = ps at hin ⊢
  induction ps generalizing s with
  | nil => exact ⟨h, .refl s⟩
  | cons p ps ih =>
    rw [List.foldl_cons]
    obtain ⟨hmem, hlo, hhi⟩ := hin p List.mem_cons_self
    have hlen : (slice data ⟨L.start p.1 - start, L.stop p.1 - L.start p.1⟩).length =
        L.stop p.1 - L.start p.1 := by
      rw [slice, List.length_take, List.length_drop]
      show min (L.stop p.1 - L.start p.1) (data.length - (L.start p.1 - start)) = _
      omega
    have hr := rehashed_keepHash s p.1 p.2 (L.hashBlock p.1 (slice data ⟨L.start p.1 - start, L.stop p.1 - L.start p.1⟩))
    obtain ⟨hsound, hrest⟩ := ih (h.keepHash hlen fun hsame => (hfresh p hmem hlo hsame).slice hlo)
      (fun q hq hqlo hsame => hr.freshIn (hfresh q hq hqlo (hr.version q.1 ▸ hsame)))
      fun q hq => hin q (List.mem_cons_of_mem _ hq)
    exact ⟨hsound, hr.trans hrest⟩

/-! ## Versions in 32 bits -/

/-- No hash being taken is of a version `2 ^ 32` or more writes back. -/
def State.Patient (s : State D X) : Prop := ∀ p ∈ s.inFlight, (s.blocks p.1).version < p.2 + 2 ^ 32

instance (s : State D X) : Decidable s.Patient :=
  inferInstanceAs (Decidable (∀ p ∈ s.inFlight, (s.blocks p.1).version < p.2 + 2 ^ 32))

theorem eq_of_sameVersion {a b : Nat} (hle : b ≤ a) (hlt : a < b + 2 ^ 32) (h : sameVersion a b = true) : a = b := by
  have hmod : a % 2 ^ 32 = b % 2 ^ 32 := by
    rw [sameVersion, beq_iff_eq] at h
    exact h
  omega

/-- While patient, versions that look the same are the same. -/
theorem State.Claim.freshIn {i version : Nat} {known : Nat → Option UInt8} (h : s.Claim L i version known)
    (hpatient : s.Patient) (hflight : (i, version) ∈ s.inFlight)
    (hsame : sameVersion (s.blocks i).version version = true) : s.FreshIn (L.start i) (L.stop i) known :=
  h.fresh (eq_of_sameVersion h.le (hpatient _ hflight) hsame)

theorem mem_inFlight_touched {w : Write} (hw : w ∈ s.writes) {touched : List Touched} {seen : Nat → Option UInt8}
    (hphase : w.phase = .hashing touched seen) {t : Touched} (ht : t ∈ touched) :
    (t.block, t.version) ∈ s.inFlight := by
  refine List.mem_append_left _ (List.mem_append_left _ (List.mem_flatMap.mpr ⟨w, hw, ?_⟩))
  rw [hphase]
  exact List.mem_map_of_mem ht

theorem mem_inFlight_unhashed {algo : X} {bytes : List UInt8} {stop : Nat} {unhashed : List (Nat × Nat)}
    {seen : Nat → Option UInt8} (hf : s.follower = some ⟨algo, bytes, .reading stop unhashed seen⟩) {p : Nat × Nat}
    (hp : p ∈ unhashed) : p ∈ s.inFlight := by
  refine List.mem_append_left _ (List.mem_append_right _ ?_)
  rw [hf]
  exact hp

theorem mem_inFlight_scan {c : Scan} (hc : c ∈ s.scans) : (c.block, c.version) ∈ s.inFlight :=
  List.mem_append_right _ (List.mem_map_of_mem hc)

end Storage

end Hyperfetch
