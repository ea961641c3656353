import Hyperfetch.Storage.Fresh
import Mathlib.Tactic

/-!
# Hashes kept are right (`storage.rs`)

`Sound` is the invariant of a writer: every hash and head kept is one of bytes
that were the file's, but for bytes unsettled, and so is everything read to be
hashed. `Sound.pass` carries it over a step: a step owes an argument only for
what it made itself. Here are the steps but for those that keep a hash.
-/

namespace Hyperfetch

open Weft

namespace Storage

variable {D X H : Type} (L : Layout D X H)

/-- A head of block `i`: as long as it says, and no longer than the block. -/
structure Layout.Fits (i : Nat) (head : Head) : Prop where
  end_eq : head.end_ = L.start i + head.bytes.length
  end_le : head.end_ ≤ L.stop i

/-- What is kept of block `i` is of the block's bytes. -/
structure State.Kept (s : State D X) (i : Nat) : Prop where
  hash : ∀ d ∈ (s.blocks i).hash, ∃ bytes : List UInt8, bytes.length = L.stop i - L.start i ∧
    d = L.hashBlock i bytes ∧ s.FreshIn (L.start i) (L.stop i) (placed (L.start i) bytes)
  head : ∀ head ∈ (s.blocks i).head, L.Fits i head ∧
    s.FreshIn (L.start i) (L.stop i) (placed (L.start i) head.bytes)

/-- What a recorded call took of a block it is to hash. -/
structure State.Took (s : State D X) (offset stop : Nat) (t : Touched) : Prop where
  start_lt : L.start t.block < stop
  lt_stop : offset < L.stop t.block
  fits : L.Fits t.block (t.base L offset)
  claim : s.Claim L t.block t.version (placed (L.start t.block) (t.base L offset).bytes)

structure State.Runs (s : State D X) (w : Write) : Prop where
  stop_le : w.stop ≤ L.size
  holds : s.Holds w
  took : ∀ touched seen, w.phase = .hashing touched seen →
    (∀ t ∈ touched, s.Took L w.offset w.stop t) ∧ ∀ t ∈ touched.head?, s.Claim L t.block t.version seen

structure State.Follows (s : State D X) (f : Follower X) : Prop where
  len_le : f.bytes.length ≤ L.size
  len_followed : f.bytes.length ≤ s.followed
  front : s.refollow = false → s.FreshIn 0 f.bytes.length (placed 0 f.bytes)
  reading : ∀ stop unhashed seen, f.phase = .reading stop unhashed seen →
    (f.bytes.length ≤ stop ∧ stop ≤ L.size ∧ stop ≤ s.followed) ∧
      (s.refollow = false → s.FreshIn 0 stop seen) ∧ ∀ p ∈ unhashed, s.Claim L p.1 p.2 seen

structure Sound (s : State D X) : Prop where
  within : ∀ r ∈ s.written, r.2 ≤ L.size
  kept : ∀ i, s.Kept L i
  runs : ∀ w ∈ s.writes, s.Runs L w
  agree : ∀ w ∈ s.writes, w.running = true → ∀ v ∈ s.writes, v.running = true → w.Agrees v
  follows : ∀ f ∈ s.follower, s.Follows L f
  scans : ∀ c ∈ s.scans, s.Claim L c.block c.version c.seen

/-! ## What a step need not argue for -/

variable {L} {s s' : State D X}

theorem State.Kept.carry {i : Nat} (h : s.Kept L i) (hc : Carries s s' (L.start i) (L.stop i))
    (hhash : ∀ d ∈ (s'.blocks i).hash, d ∈ (s.blocks i).hash)
    (hhead : ∀ head ∈ (s'.blocks i).head, head ∈ (s.blocks i).head) : s'.Kept L i where
  hash d hd := by
    obtain ⟨bytes, hlen, heq, hfresh⟩ := h.hash d (hhash d hd)
    exact ⟨bytes, hlen, heq, hfresh.carry hc⟩
  head head hh := by
    obtain ⟨hfits, hfresh⟩ := h.head head (hhead head hh)
    exact ⟨hfits, hfresh.carry hc⟩

theorem State.Kept.pass {i : Nat} (h : s.Kept L i) (hp : Passes L s s') (hblock : s'.blocks i = s.blocks i) :
    s'.Kept L i := by
  rcases hp.block i with ⟨_, hc⟩ | hlt
  · exact h.carry hc (fun d hd => hblock ▸ hd) fun head hh => hblock ▸ hh
  · rw [hblock] at hlt
    exact (Nat.lt_irrefl _ hlt).elim

theorem State.Took.pass {offset stop : Nat} {t : Touched} (h : s.Took L offset stop t) (hp : Passes L s s') :
    s'.Took L offset stop t :=
  { h with claim := h.claim.carry hp }

theorem State.Runs.pass {w : Write} (h : s.Runs L w) (hp : Passes L s s') (hw : w ∈ s.writes) : s'.Runs L w where
  stop_le := h.stop_le
  holds := hp.holds w hw h.holds
  took touched seen hphase := by
    obtain ⟨htook, hfirst⟩ := h.took touched seen hphase
    exact ⟨fun t ht => (htook t ht).pass hp, fun t ht => (hfirst t ht).carry hp⟩

theorem State.Follows.pass {f : Follower X} (h : s.Follows L f) (hp : Passes L s s')
    (hfollowed : s'.followed = s.followed) : s'.Follows L f where
  len_le := h.len_le
  len_followed := hfollowed ▸ h.len_followed
  front hre := by
    obtain ⟨hre', hc⟩ := hp.front hre
    intro b hlo hhi
    exact (h.front hre').carry (fun b hlo hhi => hc b hlo (hhi.trans_le h.len_followed)) b hlo hhi
  reading stop unhashed seen hphase := by
    obtain ⟨⟨hlen, hsize, hstop⟩, hfresh, hclaims⟩ := h.reading stop unhashed seen hphase
    refine ⟨⟨hlen, hsize, hfollowed ▸ hstop⟩, fun hre => ?_, fun p hp' => (hclaims p hp').carry hp⟩
    obtain ⟨hre', hc⟩ := hp.front hre
    exact (hfresh hre').carry fun b hlo hhi => hc b hlo (hhi.trans_le hstop)

/-- What a step leaves as it was stays sound; the rest is the step's to argue. -/
theorem Sound.pass (h : Sound L s) (hp : Passes L s s') (within : ∀ r ∈ s'.written, r.2 ≤ L.size)
    (kept : ∀ i, s'.blocks i = s.blocks i ∨ s'.Kept L i)
    (runs : ∀ w ∈ s'.writes, w ∈ s.writes ∨ s'.Runs L w)
    (agree : ∀ w ∈ s'.writes, w.running = true → ∀ v ∈ s'.writes, v.running = true → w.Agrees v)
    (follows : ∀ f ∈ s'.follower, f ∈ s.follower ∧ s'.followed = s.followed ∨ s'.Follows L f)
    (scans : ∀ c ∈ s'.scans, c ∈ s.scans ∨ s'.Claim L c.block c.version c.seen) : Sound L s' where
  within := within
  kept i := (kept i).elim (fun hb => (h.kept i).pass hp hb) id
  runs w hw := (runs w hw).elim (fun hold => (h.runs w hold).pass hp hold) id
  agree := agree
  follows f hf := (follows f hf).elim (fun hold => (h.follows f hold.1).pass hp hold.2) id
  scans c hc := (scans c hc).elim (fun hold => (h.scans c hold).carry hp) id

/-- A step that leaves the file, the calls' bytes and all versions alone. -/
theorem passes_of_calm (hfile : s'.file = s.file) (hversion : ∀ i, (s'.blocks i).version = (s.blocks i).version)
    (hrefollow : s'.refollow = s.refollow) (hwrites : ∀ b, Unsettled s.writes b → Unsettled s'.writes b) :
    Passes L s s' where
  block i := .inl ⟨hversion i, carries_of hwrites (fun b => .inl (congrFun hfile b)) _ _⟩
  front hre := ⟨hrefollow ▸ hre, carries_of hwrites (fun b => .inl (congrFun hfile b)) _ _⟩
  holds w _ hold hrun j hj x hx := by
    rw [hfile]
    exact hold hrun j hj x hx

/-! ## Calls in a list -/

variable {ws : List Write} {k : Nat} {w w' : Write}

/-- Replacing a call that is not yet to be recorded, or not before this step,
settles only that call's bytes. -/
theorem unsettled_set (hk : ws[k]? = some w) {b : Nat} (h : Unsettled ws b) :
    w.isLanding = true ∧ w.Covers b ∨ Unsettled (ws.set k w') b := by
  obtain ⟨v, hv, hlanding, hcovers⟩ := h
  obtain ⟨n, hn⟩ := List.mem_iff_getElem?.mp hv
  by_cases hnk : n = k
  · subst hnk
    have hvw : v = w := Option.some.inj (hn.symm.trans hk)
    exact .inl ⟨hvw ▸ hlanding, hvw ▸ hcovers⟩
  · refine .inr ⟨v, List.mem_iff_getElem?.mpr ⟨n, ?_⟩, hlanding, hcovers⟩
    rw [List.getElem?_set_ne (Ne.symm hnk)]
    exact hn

/-- A call goes on with the bytes it came with. -/
theorem Sound.agree_set (h : Sound L s) (hk : s.writes[k]? = some w) (hoffset : w'.offset = w.offset)
    (hdata : w'.data = w.data) (hrun : w'.running = true → w.running = true) :
    ∀ u ∈ s.writes.set k w', u.running = true → ∀ v ∈ s.writes.set k w', v.running = true → u.Agrees v := by
  have hwmem := List.mem_of_getElem? hk
  -- each call in the new list writes what one in the old list does
  have hold : ∀ u ∈ s.writes.set k w', u.running = true →
      ∃ u' ∈ s.writes, u'.running = true ∧ u'.offset = u.offset ∧ u'.data = u.data := by
    intro u hu hurun
    rcases List.mem_or_eq_of_mem_set hu with hmem | rfl
    · exact ⟨u, hmem, hurun, rfl, rfl⟩
    · exact ⟨w, hwmem, hrun hurun, hoffset.symm, hdata.symm⟩
  intro u hu hurun v hv hvrun b hub hvb
  obtain ⟨u', hu', hurun', huo, hud⟩ := hold u hu hurun
  obtain ⟨v', hv', hvrun', hvo, hvd⟩ := hold v hv hvrun
  have hagree := h.agree u' hu' hurun' v' hv' hvrun' b
  unfold Write.Covers Write.stop at hagree hub hvb
  rw [huo, hud, hvo, hvd] at hagree
  exact hagree hub hvb

end Storage

end Hyperfetch
