import Hyperfetch.Chunk.Operations

/-!
# Who holds what

`Custody` ties the manager's chunks to the file and to the workers' leases:
what the manager counts as on disk was written, and a worker whose lease is
not revoked holds the chunk it was handed alone. The primitives keep it, and
so does every operation, for whoever it hands a chunk to.
-/

namespace Hyperfetch

namespace ChunkManager

variable {m m' : ChunkManager} {total : Nat} {written : Nat → Bool} {held : Nat → Option Chunk}

/-- The bytes of `[a, b)` are written. -/
def WrittenTo (written : Nat → Bool) (a b : Nat) : Prop := ∀ x, a ≤ x → x < b → written x = true

/-- `held w` is the copy of the chunk worker `w` is at, as it was handed to it. -/
structure Custody (m : ChunkManager) (written : Nat → Bool) (held : Nat → Option Chunk) : Prop where
  done : ∀ (i : Nat) (c : Chunk), m.chunks[i]? = some c → c.isCompleted = true →
    WrittenTo written c.range.start (c.range.end_ + 1)
  written : ∀ (i : Nat) (c : Chunk), m.chunks[i]? = some c → c.isCompleted = false →
    WrittenTo written c.range.start (m.cells.leases c.lease).currentOffset
  /-- A chunk with bytes to come has a lease in force. -/
  inForce : ∀ (i : Nat) (c : Chunk), m.chunks[i]? = some c → c.isCompleted = false →
    (m.cells.leases c.lease).revoked = false
  allocated : ∀ w k, held w = some k → k.lease < m.cells.next
  /-- A lease in force is that of the chunk its worker was handed, still in flight. -/
  owns : ∀ w k, held w = some k → (m.cells.leases k.lease).revoked = false →
    ∃ c, m.chunks[k.id]? = some c ∧ c.isInFlight = true ∧ c.lease = k.lease
  apart : ∀ w w' k k', held w = some k → held w' = some k' → k.lease = k'.lease → w = w'

/-- No lease of the manager's chunks is yet to be allocated. -/
def Leased (m : ChunkManager) : Prop :=
  ∀ (i : Nat) (c : Chunk), m.chunks[i]? = some c → c.lease < m.cells.next

theorem Books.leases (h : m.Books total) : m.Leased := fun i c hc => (h.entry i c hc).leased

/-! ## What operations never undo -/

/-- From `m` to `m'` offsets stay, ends only fall, revoked leases stay
revoked, and a chunk keeps its lease or gets a new one. -/
structure Grows (m m' : ChunkManager) : Prop where
  next : m.cells.next ≤ m'.cells.next
  offset : ∀ a < m.cells.next, (m'.cells.leases a).currentOffset = (m.cells.leases a).currentOffset
  end_ : ∀ a < m.cells.next, (m'.cells.leases a).endOffset ≤ (m.cells.leases a).endOffset
  revoked : ∀ a < m.cells.next, (m.cells.leases a).revoked = true → (m'.cells.leases a).revoked = true
  lease : ∀ (i : Nat) (c : Chunk), m.chunks[i]? = some c →
    ∃ c', m'.chunks[i]? = some c' ∧ (c'.lease = c.lease ∨ m.cells.next ≤ c'.lease)

theorem Grows.refl (m : ChunkManager) : m.Grows m :=
  ⟨le_rfl, fun _ _ => rfl, fun _ _ => le_rfl, fun _ _ h => h, fun _ c hc => ⟨c, hc, .inl rfl⟩⟩

theorem Grows.trans {m'' : ChunkManager} (h : m.Grows m') (h' : m'.Grows m'') : m.Grows m'' where
  next := h.next.trans h'.next
  offset a ha := (h'.offset a (Nat.lt_of_lt_of_le ha h.next)).trans (h.offset a ha)
  end_ a ha := (h'.end_ a (Nat.lt_of_lt_of_le ha h.next)).trans (h.end_ a ha)
  revoked a ha hr := h'.revoked a (Nat.lt_of_lt_of_le ha h.next) (h.revoked a ha hr)
  lease i c hc := by
    obtain ⟨c', hc', hl⟩ := h.lease i c hc
    obtain ⟨c'', hc'', hl'⟩ := h'.lease i c' hc'
    refine ⟨c'', hc'', ?_⟩
    have := h.next
    rcases hl with hl | hl <;> rcases hl' with hl' | hl'
    · exact .inl (hl'.trans hl)
    · exact .inr (by omega)
    · exact .inr (by omega)
    · exact .inr (by omega)

/-- Only one chunk is replaced, and the cells only grow. -/
theorem Grows.ofSet {id : Nat} {c c' : Chunk} (hc : m.chunks[id]? = some c)
    (hchunks : m'.chunks = m.chunks.set id c')
    (hlease : c'.lease = c.lease ∨ m.cells.next ≤ c'.lease) (hnext : m.cells.next ≤ m'.cells.next)
    (hold : ∀ a < m.cells.next, m'.cells.leases a = m.cells.leases a) : m.Grows m' where
  next := hnext
  offset a ha := by rw [hold a ha]
  end_ a ha := by rw [hold a ha]
  revoked a ha hr := by rw [hold a ha]; exact hr
  lease i d hd := by
    by_cases hi : i = id
    · subst hi
      rw [hc] at hd
      cases hd
      exact ⟨c', by rw [hchunks]; exact (getElem?_set_some hc).mpr (.inl ⟨rfl, rfl⟩), hlease⟩
    · exact ⟨d, by rw [hchunks]; exact (getElem?_set_some hc).mpr (.inr ⟨hi, hd⟩), .inl rfl⟩

theorem grows_push (m : ChunkManager) (range : ByteRange) (status : ChunkStatus) :
    m.Grows (m.push range status) where
  next := Nat.le_succ _
  offset a ha := by rw [push, alloc_lease_old ha]
  end_ a ha := by rw [push, alloc_lease_old ha]
  revoked a ha hr := by rw [push, alloc_lease_old ha]; exact hr
  lease i c hc := ⟨c, getElem?_concat_some.mpr (.inl hc), .inl rfl⟩

theorem grows_assign {id : Nat} {c : Chunk} (hc : m.chunks[id]? = some c) (workerId mirrorId now : Nat) :
    m.Grows (m.assign id c workerId mirrorId now).2 :=
  .ofSet hc rfl (.inl rfl) (Nat.le_succ _) fun _ ha => alloc_lease_old ha

theorem grows_relet {id pos end_ : Nat} {c : Chunk} (hc : m.chunks[id]? = some c) :
    m.Grows (m.relet id c pos end_).2 :=
  .ofSet hc rfl (.inr le_rfl) (Nat.le_succ _) fun _ ha => alloc_lease_old ha

theorem grows_complete {id : Nat} {c : Chunk} (hc : m.chunks[id]? = some c) : m.Grows (m.complete id c) :=
  .ofSet hc rfl (.inl rfl) le_rfl fun _ _ => rfl

theorem grows_splitWritten {id pos : Nat} {c : Chunk} (hc : m.chunks[id]? = some c) :
    m.Grows (m.splitWritten id c pos).2 :=
  have hset : m.Grows { m with chunks := m.chunks.set id { c with range := ⟨pos, c.range.end_⟩ } } :=
    .ofSet hc rfl (.inl rfl) le_rfl fun _ _ => rfl
  hset.trans
    { grows_push _ ⟨c.range.start, pos - 1⟩ .completed with }

theorem grows_rest {id pos : Nat} {c : Chunk} (hc : m.chunks[id]? = some c) :
    m.Grows (m.rest id c pos).2 := by
  unfold rest
  split
  · exact grows_splitWritten hc
  · exact .refl m

theorem grows_revoke (m : ChunkManager) (lease : Nat) :
    m.Grows { m with cells := m.cells.revoke lease } where
  next := le_rfl
  offset a _ := by
    simp only [Cells.revoke, Function.update_apply]
    split
    · rename_i h; rw [h]
    · rfl
  end_ a _ := by rw [revoke_endOffset]
  revoked a _ hr := by
    simp only [Cells.revoke, Function.update_apply]
    split
    · rfl
    · exact hr
  lease i c hc := ⟨c, hc, .inl rfl⟩

theorem grows_truncate {id end_ : Nat} {c : Chunk} (hc : m.chunks[id]? = some c)
    (hend : end_ ≤ (m.cells.leases c.lease).endOffset) : m.Grows (m.truncate id c end_) where
  next := le_rfl
  offset a _ := by
    simp only [truncate, Cells.storeEnd, Function.update_apply]
    split
    · rename_i h; rw [h]
    · rfl
  end_ a _ := by
    rw [truncate, storeEnd_lease]
    split
    · rename_i h; rw [h]; exact hend
    · exact le_rfl
  revoked a _ hr := by
    simp only [truncate, Cells.storeEnd, Function.update_apply]
    split
    · rename_i h; rw [h] at hr; exact hr
    · exact hr
  lease i d hd := by
    by_cases hi : i = id
    · subst hi
      rw [hc] at hd
      cases hd
      exact ⟨_, (getElem?_set_some hc).mpr (.inl ⟨rfl, rfl⟩), .inl rfl⟩
    · exact ⟨d, (getElem?_set_some hc).mpr (.inr ⟨hi, hd⟩), .inl rfl⟩

/-! ## Custody over the primitives -/

/-- One chunk is replaced; at most its own lease changes. -/
theorem Custody.update {id : Nat} {c c' : Chunk} (h : Custody m written held)
    (hc : m.chunks[id]? = some c) (hleased : m.Leased)
    (hdistinct : ∀ (i : Nat) (d : Chunk), m.chunks[i]? = some d → d.lease = c.lease → i = id)
    (hchunks : m'.chunks = m.chunks.set id c') (hnext : m.cells.next ≤ m'.cells.next)
    (hold : ∀ a < m.cells.next, a ≠ c.lease →
      (m'.cells.leases a).currentOffset = (m.cells.leases a).currentOffset ∧
        (m'.cells.leases a).revoked = (m.cells.leases a).revoked)
    (hrevoked : (m.cells.leases c.lease).revoked = true → (m'.cells.leases c.lease).revoked = true)
    (hdone : c'.isCompleted = true → WrittenTo written c'.range.start (c'.range.end_ + 1))
    (hwritten : c'.isCompleted = false →
      WrittenTo written c'.range.start (m'.cells.leases c'.lease).currentOffset)
    (hinForce : c'.isCompleted = false → (m'.cells.leases c'.lease).revoked = false)
    (howns : ∀ w k, held w = some k → k.id = id → (m'.cells.leases k.lease).revoked = false →
      c'.isInFlight = true ∧ c'.lease = k.lease) :
    Custody m' written held := by
  have hother : ∀ i d, i ≠ id → m.chunks[i]? = some d → d.lease ≠ c.lease := fun i d hi hd heq =>
    hi (hdistinct i d hd heq)
  refine ⟨?_, ?_, ?_, ?_, ?_, h.apart⟩
  · intro i d hd hcomp
    rw [hchunks, getElem?_set_some hc] at hd
    rcases hd with ⟨rfl, rfl⟩ | ⟨_, hd⟩
    · exact hdone hcomp
    · exact h.done i d hd hcomp
  · intro i d hd hopen
    rw [hchunks, getElem?_set_some hc] at hd
    rcases hd with ⟨rfl, rfl⟩ | ⟨hi, hd⟩
    · exact hwritten hopen
    · rw [(hold d.lease (hleased i d hd) (hother i d hi hd)).1]
      exact h.written i d hd hopen
  · intro i d hd hopen
    rw [hchunks, getElem?_set_some hc] at hd
    rcases hd with ⟨rfl, rfl⟩ | ⟨hi, hd⟩
    · exact hinForce hopen
    · rw [(hold d.lease (hleased i d hd) (hother i d hi hd)).2]
      exact h.inForce i d hd hopen
  · exact fun w k hk => Nat.lt_of_lt_of_le (h.allocated w k hk) hnext
  · intro w k hk hforce
    by_cases hid : k.id = id
    · have := howns w k hk hid hforce
      exact ⟨c', by rw [hchunks, hid]; exact (getElem?_set_some hc).mpr (.inl ⟨rfl, rfl⟩), this⟩
    · have hbefore : (m.cells.leases k.lease).revoked = false := by
        by_cases hlease : k.lease = c.lease
        · rw [hlease] at hforce ⊢
          by_contra hrev
          rw [hrevoked (Bool.eq_true_of_not_eq_false hrev)] at hforce
          cases hforce
        · rw [← (hold k.lease (h.allocated w k hk) hlease).2]
          exact hforce
      obtain ⟨d, hd, hflight, hlease⟩ := h.owns w k hk hbefore
      exact ⟨d, by rw [hchunks]; exact (getElem?_set_some hc).mpr (.inr ⟨hid, hd⟩), hflight, hlease⟩

/-- A new chunk joins, completed only if its bytes are written. -/
theorem Custody.push (h : Custody m written held) (hleased : m.Leased) (range : ByteRange)
    (status : ChunkStatus)
    (hdone : status = .completed → WrittenTo written range.start (range.end_ + 1)) :
    Custody (m.push range status) written held := by
  have hold : ∀ a < m.cells.next, (m.push range status).cells.leases a = m.cells.leases a :=
    fun a ha => alloc_lease_old ha
  refine ⟨?_, ?_, ?_, ?_, ?_, h.apart⟩
  · intro i d hd hcomp
    rcases getElem?_concat_some.mp hd with hd | ⟨_, rfl⟩
    · exact h.done i d hd hcomp
    · exact hdone (by simpa [Chunk.isCompleted] using hcomp)
  · intro i d hd hopen
    rcases getElem?_concat_some.mp hd with hd | ⟨_, rfl⟩
    · rw [hold d.lease (hleased i d hd)]
      exact h.written i d hd hopen
    · intro x h1 h2
      simp only [ChunkManager.push, Chunk.new, alloc_lease_new, Chunk.newLease] at h1 h2
      exact absurd h1 (Nat.not_le.mpr h2)
  · intro i d hd hopen
    rcases getElem?_concat_some.mp hd with hd | ⟨_, rfl⟩
    · rw [hold d.lease (hleased i d hd)]
      exact h.inForce i d hd hopen
    · simp [ChunkManager.push, Chunk.new, Chunk.newLease]
  · exact fun w k hk => Nat.lt_succ_of_lt (h.allocated w k hk)
  · intro w k hk hforce
    rw [hold k.lease (h.allocated w k hk)] at hforce
    obtain ⟨d, hd, hown⟩ := h.owns w k hk hforce
    exact ⟨d, getElem?_concat_some.mpr (.inl hd), hown⟩

/-- A worker takes the chunk it was handed, whose lease nobody else holds. -/
theorem Custody.take (h : Custody m written held) {w : Nat} {k c : Chunk}
    (hc : m.chunks[k.id]? = some c) (hflight : c.isInFlight = true) (hlease : c.lease = k.lease)
    (hlt : k.lease < m.cells.next) (hfree : ∀ w' k', held w' = some k' → k'.lease ≠ k.lease) :
    Custody m written (Function.update held w (some k)) := by
  refine ⟨h.done, h.written, h.inForce, ?_, ?_, ?_⟩
  · intro w' k' hk'
    rw [Function.update_apply] at hk'
    split at hk'
    · cases hk'; exact hlt
    · exact h.allocated w' k' hk'
  · intro w' k' hk' hforce
    rw [Function.update_apply] at hk'
    split at hk'
    · cases hk'; exact ⟨c, hc, hflight, hlease⟩
    · exact h.owns w' k' hk' hforce
  · intro w₁ w₂ k₁ k₂ h1 h2 heq
    rw [Function.update_apply] at h1 h2
    split at h1 <;> split at h2
    · rename_i e1 e2; rw [e1, e2]
    · cases h1
      exact absurd heq.symm (hfree w₂ k₂ h2)
    · cases h2
      exact absurd heq (hfree w₁ k₁ h1)
    · exact h.apart w₁ w₂ k₁ k₂ h1 h2 heq

/-- A worker is done with its chunk. -/
theorem Custody.release (h : Custody m written held) (w : Nat) :
    Custody m written (Function.update held w none) := by
  have hsub : ∀ w' k, Function.update held w none w' = some k → held w' = some k := by
    intro w' k hk
    rw [Function.update_apply] at hk
    split at hk
    · cases hk
    · exact hk
  exact ⟨h.done, h.written, h.inForce, fun w' k hk => h.allocated w' k (hsub w' k hk),
    fun w' k hk => h.owns w' k (hsub w' k hk),
    fun w₁ w₂ k₁ k₂ h1 h2 => h.apart w₁ w₂ k₁ k₂ (hsub w₁ k₁ h1) (hsub w₂ k₂ h2)⟩

/-- A chunk has one worker at most whose lease is in force. -/
theorem Custody.sole (h : Custody m written held) {w w' : Nat} {k k' : Chunk} (hk : held w = some k)
    (hk' : held w' = some k') (hforce : (m.cells.leases k.lease).revoked = false)
    (hforce' : (m.cells.leases k'.lease).revoked = false) (hid : k'.id = k.id) : w' = w := by
  obtain ⟨c, hc, _, hl⟩ := h.owns w k hk hforce
  obtain ⟨c', hc', _, hl'⟩ := h.owns w' k' hk' hforce'
  rw [hid, hc] at hc'
  cases hc'
  exact h.apart w' w k' k hk' hk (hl'.symm.trans hl)

/-- Nobody holds the lease of a chunk that is not in flight. -/
theorem Custody.free (h : Custody m written held) (hbooks : m.Books total) {id : Nat} {c : Chunk}
    (hc : m.chunks[id]? = some c) (hopen : c.isCompleted = false) (hflight : c.isInFlight = false) :
    (∀ w k, held w = some k → k.lease ≠ c.lease) ∧
      ∀ w k, held w = some k → (m.cells.leases k.lease).revoked = false → k.id ≠ id := by
  have hid : ∀ w k, held w = some k → (m.cells.leases k.lease).revoked = false → k.id ≠ id := by
    intro w k hk hforce heq
    obtain ⟨d, hd, hin, _⟩ := h.owns w k hk hforce
    rw [heq, hc] at hd
    cases hd
    rw [hflight] at hin
    cases hin
  refine ⟨fun w k hk heq => ?_, hid⟩
  have hforce : (m.cells.leases k.lease).revoked = false := heq ▸ h.inForce id c hc hopen
  obtain ⟨d, hd, _, hl⟩ := h.owns w k hk hforce
  exact hid w k hk hforce (hbooks.distinct k.id id d c hd hc (hl.trans heq))

end ChunkManager

end Hyperfetch
