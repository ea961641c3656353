import Hyperfetch.Storage.Writer
import Mathlib.Tactic

/-!
# What is known of a file while it is written (`storage.rs`)

A byte is unsettled while a call that writes it has not been recorded: it may
have changed already, while what was hashed of it is still kept. Of the other
bytes, what a hash is taken of is what the file holds, unless a call was
recorded in the block since (`State.Claim`). A step keeps what is known of a
block, or bumps the block's version (`Passes`).
-/

namespace Hyperfetch

open Weft

namespace Storage

variable {D X H : Type} (L : Layout D X H)

/-- A call yet to be recorded writes byte `b`. -/
def Unsettled (ws : List Write) (b : Nat) : Prop := ∃ w ∈ ws, w.isLanding = true ∧ w.Covers b

/-- What is known of the bytes from `lo` up to `hi` is what the file holds. -/
def State.FreshIn (s : State D X) (lo hi : Nat) (known : Nat → Option UInt8) : Prop :=
  ∀ b, lo ≤ b → b < hi → ∀ x ∈ known b, Unsettled s.writes b ∨ s.file b = x

/-- A file of which the bytes from `start` on are known. -/
def placed (start : Nat) (bytes : List UInt8) (b : Nat) : Option UInt8 :=
  if start ≤ b then bytes[b - start]? else none

/-- What was read of block `i` since it had `version` is what the block holds,
unless it was written since. -/
structure State.Claim (s : State D X) (i version : Nat) (known : Nat → Option UInt8) : Prop where
  le : version ≤ (s.blocks i).version
  fresh : (s.blocks i).version = version → s.FreshIn (L.start i) (L.stop i) known

/-- The bytes a call has landed; once it is recorded, all of them. -/
def Write.Has (w : Write) (j : Nat) : Prop :=
  match w.phase with
  | .landing landed => j ∈ landed
  | .hashing _ _ => True

/-- The file has what a running call landed. -/
def State.Holds (s : State D X) (w : Write) : Prop :=
  w.running = true → ∀ j, w.Has j → ∀ x ∈ w.data[j]?, s.file (w.offset + j) = x

/-! ## Bytes known -/

theorem mem_placed {start : Nat} {bytes : List UInt8} {b : Nat} {x : UInt8} :
    x ∈ placed start bytes b ↔ start ≤ b ∧ x ∈ bytes[b - start]? := by
  unfold placed
  by_cases hstart : start ≤ b
  · rw [if_pos hstart]
    exact ⟨fun hx => ⟨hstart, hx⟩, fun hx => hx.2⟩
  · rw [if_neg hstart]
    exact ⟨fun hx => (Option.not_mem_none x hx).elim, fun hx => (hstart hx.1).elim⟩

theorem freshIn_none (s : State D X) (lo hi : Nat) : s.FreshIn lo hi fun _ => none := by
  intro b _ _ x hx
  exact (Option.not_mem_none x hx).elim

theorem State.FreshIn.sub {s : State D X} {lo hi lo' hi' : Nat} {known : Nat → Option UInt8}
    (h : s.FreshIn lo hi known) (hlo : lo ≤ lo') (hhi : hi' ≤ hi) : s.FreshIn lo' hi' known := by
  intro b hb hb' x hx
  exact h b (hlo.trans hb) (hb'.trans_le hhi) x hx

/-- A byte just read is what the file holds. -/
theorem State.FreshIn.read {s : State D X} {lo hi : Nat} {known : Nat → Option UInt8}
    (h : s.FreshIn lo hi known) (at_ : Nat) : s.FreshIn lo hi (Function.update known at_ (some (s.file at_))) := by
  intro b hlo hhi x hx
  by_cases hb : b = at_
  · subst hb
    rw [Function.update_self, Option.mem_some] at hx
    exact .inr hx
  · rw [Function.update_of_ne hb] at hx
    exact h b hlo hhi x hx

theorem State.FreshIn.append {s : State D X} {lo hi start : Nat} {xs ys : List UInt8}
    (hxs : s.FreshIn lo hi (placed start xs)) (hys : s.FreshIn lo hi (placed (start + xs.length) ys)) :
    s.FreshIn lo hi (placed start (xs ++ ys)) := by
  intro b hlo hhi x hx
  obtain ⟨hstart, hx⟩ := mem_placed.mp hx
  by_cases hb : b - start < xs.length
  · rw [List.getElem?_append_left hb] at hx
    exact hxs b hlo hhi x (mem_placed.mpr ⟨hstart, hx⟩)
  · rw [List.getElem?_append_right (by omega)] at hx
    refine hys b hlo hhi x (mem_placed.mpr ⟨by omega, ?_⟩)
    rw [show b - (start + xs.length) = b - start - xs.length by omega]
    exact hx

/-- No more is known than the bytes there are. -/
theorem State.FreshIn.widen {s : State D X} {lo hi : Nat} {bytes : List UInt8}
    (h : s.FreshIn lo (lo + bytes.length) (placed lo bytes)) : s.FreshIn lo hi (placed lo bytes) := by
  intro b hlo _ x hx
  have hlt := (List.getElem?_eq_some_iff.mp (mem_placed.mp hx).2).1
  exact h b hlo (by omega) x hx

theorem placed_nil (start : Nat) : placed start [] = fun _ => none := by
  funext b
  unfold placed
  split <;> rfl

theorem length_seenBytes (seen : Nat → Option UInt8) (start stop : Nat) :
    (seenBytes seen start stop).length = stop - start := by
  rw [seenBytes, List.length_map, List.length_range']

theorem length_contents (s : State D X) (start stop : Nat) :
    (s.contents start stop).length = stop - start := by
  rw [State.contents, List.length_map, List.length_range']

theorem getElem?_contents (s : State D X) (start stop i : Nat) :
    (s.contents start stop)[i]? = if i < stop - start then some (s.file (start + i)) else none := by
  rw [State.contents, List.getElem?_map]
  split
  · rw [List.getElem?_range' (by assumption), Nat.one_mul, Option.map_some]
  · rw [List.getElem?_eq_none (by rw [List.length_range']; omega), Option.map_none]

/-- What a whole read saw. -/
theorem State.FreshIn.seen {s : State D X} {lo hi start stop : Nat} {seen : Nat → Option UInt8}
    (h : s.FreshIn lo hi seen) (hall : sawAll seen start stop = true) :
    s.FreshIn lo hi (placed start (seenBytes seen start stop)) := by
  intro b hlo hhi x hx
  obtain ⟨hstart, hx⟩ := mem_placed.mp hx
  rw [seenBytes, List.getElem?_map, Option.mem_def, Option.map_eq_some_iff] at hx
  obtain ⟨c, hc, rfl⟩ := hx
  obtain ⟨hlt, hget⟩ := List.getElem?_eq_some_iff.mp hc
  rw [List.length_range'] at hlt
  have hbc : c = b := by
    rw [← hget, List.getElem_range']
    omega
  subst hbc
  have hsome : (seen c).isSome = true :=
    List.all_eq_true.mp hall c (List.mem_range'_1.mpr ⟨by omega, by omega⟩)
  obtain ⟨y, hy⟩ := Option.isSome_iff_exists.mp hsome
  rw [hy, Option.getD_some]
  exact h c hlo hhi y hy

theorem Write.has_of_recorded (w : Write) (h : w.isLanding = false) (j : Nat) : w.Has j := by
  obtain ⟨offset, data, phase⟩ := w
  cases phase with
  | landing _ => exact (Bool.noConfusion h)
  | hashing _ _ => exact trivial

/-- What a recorded call wrote. -/
theorem State.Holds.slice {s : State D X} {w : Write} (h : s.Holds w) (hrun : w.running = true)
    (hlanding : w.isLanding = false) {at_ n : Nat} (hat : w.offset ≤ at_) (lo hi : Nat) :
    s.FreshIn lo hi (placed at_ (slice w.data ⟨at_ - w.offset, n⟩)) := by
  intro b _ _ x hx
  obtain ⟨hstart, hx⟩ := mem_placed.mp hx
  rw [getElem?_slice] at hx
  split at hx
  · have hfile := h hrun _ (w.has_of_recorded hlanding _) x hx
    rw [show w.offset + (at_ - w.offset + (b - at_)) = b by omega] at hfile
    exact .inr hfile
  · exact (Option.not_mem_none x hx).elim

/-- A stretch of bytes known. -/
theorem State.FreshIn.slice {s : State D X} {lo hi start at_ n : Nat} {bytes : List UInt8}
    (h : s.FreshIn lo hi (placed start bytes)) (hat : start ≤ at_) :
    s.FreshIn lo hi (placed at_ (Weft.slice bytes ⟨at_ - start, n⟩)) := by
  intro b hlo hhi x hx
  obtain ⟨hstart, hx⟩ := mem_placed.mp hx
  rw [getElem?_slice] at hx
  split at hx
  · refine h b hlo hhi x (mem_placed.mpr ⟨hat.trans hstart, ?_⟩)
    rw [show b - start = at_ - start + (b - at_) by omega]
    exact hx
  · exact (Option.not_mem_none x hx).elim

theorem freshIn_contents (s : State D X) (lo hi start stop : Nat) :
    s.FreshIn lo hi (placed start (s.contents start stop)) := by
  intro b _ _ x hx
  obtain ⟨hstart, hx⟩ := mem_placed.mp hx
  rw [getElem?_contents] at hx
  split at hx
  · rw [Option.mem_some, show start + (b - start) = b by omega] at hx
    exact .inr hx
  · exact (Option.not_mem_none x hx).elim

/-- Where nothing is unsettled, all that is known is all there is. -/
theorem State.FreshIn.eq_contents {s : State D X} {lo hi : Nat} {bytes : List UInt8}
    (h : s.FreshIn lo hi (placed lo bytes)) (hlen : bytes.length = hi - lo)
    (hsettled : ∀ b, lo ≤ b → b < hi → ¬ Unsettled s.writes b) : bytes = s.contents lo hi := by
  apply List.ext_getElem?
  intro i
  rw [getElem?_contents]
  split
  · have hi' : i < bytes.length := by omega
    have hknown : bytes[i] ∈ placed lo bytes (lo + i) := by
      rw [mem_placed, Nat.add_sub_cancel_left]
      exact ⟨Nat.le_add_right _ _, List.getElem?_eq_getElem hi'⟩
    rw [List.getElem?_eq_getElem hi']
    rcases h (lo + i) (Nat.le_add_right _ _) (by omega) _ hknown with hun | hfile
    · exact (hsettled _ (Nat.le_add_right _ _) (by omega) hun).elim
    · rw [hfile]
  · exact List.getElem?_eq_none (by omega)

/-! ## What a step keeps -/

/-- What is known of the bytes from `lo` up to `hi` survives from `s` to `s'`. -/
def Carries (s s' : State D X) (lo hi : Nat) : Prop :=
  ∀ b, lo ≤ b → b < hi → Unsettled s'.writes b ∨ ¬ Unsettled s.writes b ∧ s'.file b = s.file b

/-- From `s` to `s'` a block's version stays and what is known of the block
survives, or the version goes up. Bytes the prefix hasher may have read are
kept unless it is told, and those of running calls. -/
structure Passes (s s' : State D X) : Prop where
  block : ∀ i, (s'.blocks i).version = (s.blocks i).version ∧ Carries s s' (L.start i) (L.stop i) ∨
    (s.blocks i).version < (s'.blocks i).version
  front : s'.refollow = false → s.refollow = false ∧ Carries s s' 0 s.followed
  holds : ∀ w ∈ s.writes, s.Holds w → s'.Holds w

theorem State.FreshIn.carry {s s' : State D X} {lo hi : Nat} {known : Nat → Option UInt8}
    (h : s.FreshIn lo hi known) (hc : Carries s s' lo hi) : s'.FreshIn lo hi known := by
  intro b hlo hhi x hx
  rcases hc b hlo hhi with hun | ⟨hsettled, hfile⟩
  · exact .inl hun
  · rcases h b hlo hhi x hx with hun | hx
    · exact (hsettled hun).elim
    · exact .inr (hfile.trans hx)

variable {L}

theorem State.Claim.carry {s s' : State D X} {i version : Nat} {known : Nat → Option UInt8}
    (h : s.Claim L i version known) (hp : Passes L s s') : s'.Claim L i version known := by
  rcases hp.block i with ⟨hversion, hc⟩ | hlt
  · exact ⟨hversion ▸ h.le, fun hv => (h.fresh (hversion ▸ hv)).carry hc⟩
  · -- the block was written again, and the claim says nothing any more
    exact ⟨h.le.trans hlt.le, fun hv => absurd (hv ▸ hlt) (Nat.not_lt.mpr h.le)⟩

/-- Where only unsettled bytes change, what is known of the others survives. -/
theorem carries_of {s s' : State D X} (hwrites : ∀ b, Unsettled s.writes b → Unsettled s'.writes b)
    (hfile : ∀ b, s'.file b = s.file b ∨ Unsettled s'.writes b) (lo hi : Nat) : Carries s s' lo hi := by
  intro b _ _
  by_cases hun : Unsettled s.writes b
  · exact .inl (hwrites b hun)
  · exact (hfile b).elim (fun hfile => .inr ⟨hun, hfile⟩) .inl

end Storage

end Hyperfetch
