import Hyperfetch.Chunk.Manager

/-!
# The manager's books

`Books` is what holds between any two operations of the manager. The
operations are put together from a few primitives (`assign`, `splitWritten`,
`truncate` with the `push` of the rest, `relet`, completing and requeueing a
chunk); each keeps the books, and so does every operation.
-/

namespace Hyperfetch

open Weft

namespace ChunkManager

/-- What holds of the chunk at index `i`. -/
structure Entry (m : ChunkManager) (i : Nat) (c : Chunk) : Prop where
  id : c.id = i
  end_ : c.isCompleted = false → (m.cells.leases c.lease).endOffset = c.range.end_
  fresh : i < m.nextFresh → c.status ≠ .unassigned
  queued : i ∈ m.retryQueue ↔ c.isFailed = true
  leased : c.lease < m.cells.next

/-- The books of the manager of a file of `total` bytes. -/
structure Books (m : ChunkManager) (total : Nat) : Prop where
  size : m.totalSize = total
  bounded : total ≤ u64Max
  tiling : ExactCover (·.range.start) (·.range.end_) 0 total m.chunks
  completed : m.completed = m.chunks.countP Chunk.isCompleted
  cursor : m.nextFresh ≤ m.chunks.length
  nodup : m.retryQueue.Nodup
  queue : ∀ i ∈ m.retryQueue, i < m.chunks.length
  /-- No two chunks share a lease. -/
  distinct : ∀ (i j : Nat) (c d : Chunk), m.chunks[i]? = some c → m.chunks[j]? = some d →
    c.lease = d.lease → i = j
  entry : ∀ i c, m.chunks[i]? = some c → m.Entry i c

/-! ## Reading a changed list -/

theorem getElem?_set_some {α : Type*} {xs : List α} {i j : Nat} {x y z : α} (hx : xs[i]? = some x) :
    (xs.set i y)[j]? = some z ↔ (j = i ∧ z = y) ∨ (j ≠ i ∧ xs[j]? = some z) := by
  obtain ⟨hlt, _⟩ := List.getElem?_eq_some_iff.mp hx
  rw [List.getElem?_set]
  split
  · rename_i hij
    subst hij
    simp [hlt, eq_comm]
  · rename_i hij
    simp [Ne.symm hij]

theorem getElem?_concat_some {α : Type*} {xs : List α} {j : Nat} {y z : α} :
    (xs ++ [y])[j]? = some z ↔ xs[j]? = some z ∨ (j = xs.length ∧ z = y) := by
  rw [List.getElem?_append]
  split
  · rename_i hlt
    simp [Nat.ne_of_lt hlt]
  · rename_i hge
    have hnone : xs[j]? = none := List.getElem?_eq_none (Nat.not_lt.mp hge)
    rw [hnone, List.getElem?_singleton]
    split
    · have : j = xs.length := by omega
      simp [this, eq_comm]
    · have : j ≠ xs.length := by omega
      simp [this]

theorem lt_length {α : Type*} {xs : List α} {i : Nat} {x : α} (hx : xs[i]? = some x) :
    i < xs.length := (List.getElem?_eq_some_iff.mp hx).1

/-! ## Cells -/

@[simp] theorem alloc_next (cells : Cells) (l : Lease) : (cells.alloc l).next = cells.next + 1 := rfl

theorem alloc_lease_old {cells : Cells} {l : Lease} {a : Nat} (ha : a < cells.next) :
    (cells.alloc l).leases a = cells.leases a :=
  Function.update_of_ne (Nat.ne_of_lt ha) _ _

@[simp] theorem alloc_lease_new (cells : Cells) (l : Lease) : (cells.alloc l).leases cells.next = l :=
  Function.update_self ..

theorem storeEnd_lease (cells : Cells) (lease end_ a : Nat) :
    ((cells.storeEnd lease end_).leases a).endOffset =
      if a = lease then end_ else (cells.leases a).endOffset := by
  simp only [Cells.storeEnd, Function.update_apply]
  split <;> rfl

@[simp] theorem storeEnd_next (cells : Cells) (lease end_ : Nat) :
    (cells.storeEnd lease end_).next = cells.next := rfl

@[simp] theorem store_endOffset (cells : Cells) (lease pos a : Nat) :
    ((cells.store lease pos).leases a).endOffset = (cells.leases a).endOffset := by
  simp only [Cells.store, Function.update_apply]
  split
  · rename_i h; rw [h]
  · rfl

@[simp] theorem revoke_endOffset (cells : Cells) (lease a : Nat) :
    ((cells.revoke lease).leases a).endOffset = (cells.leases a).endOffset := by
  simp only [Cells.revoke, Function.update_apply]
  split
  · rename_i h; rw [h]
  · rfl

theorem revoke_other {cells : Cells} {lease a : Nat} (ha : a ≠ lease) :
    (cells.revoke lease).leases a = cells.leases a := Function.update_of_ne ha _ _

@[simp] theorem revoke_self (cells : Cells) (lease : Nat) :
    ((cells.revoke lease).leases lease).revoked = true := by simp [Cells.revoke]

/-! ## Primitives -/

/-- Cells may change as long as no lease in use has its end moved. -/
theorem Books.withCells {m : ChunkManager} {total : Nat} (h : m.Books total) {cells : Cells}
    (hends : ∀ a < m.cells.next, (cells.leases a).endOffset = (m.cells.leases a).endOffset)
    (hnext : m.cells.next ≤ cells.next) : Books { m with cells } total where
  size := h.size
  bounded := h.bounded
  tiling := h.tiling
  completed := h.completed
  cursor := h.cursor
  nodup := h.nodup
  queue := h.queue
  distinct := h.distinct
  entry i c hc :=
    have e := h.entry i c hc
    { id := e.id
      end_ := fun hopen => (hends c.lease e.leased).trans (e.end_ hopen)
      fresh := e.fresh
      queued := e.queued
      leased := Nat.lt_of_lt_of_le e.leased hnext }

/-- One chunk is replaced by another over the same range; the cursor, the
queue and the counter follow. -/
theorem Books.update {m m' : ChunkManager} {total : Nat} {id : Nat} {c : Chunk} (h : m.Books total)
    (hc : m.chunks[id]? = some c) (c' : Chunk) (hchunks : m'.chunks = m.chunks.set id c')
    (hsize : m'.totalSize = m.totalSize) (hrange : c'.range = c.range)
    (hlease : c'.lease = c.lease ∨ m.cells.next ≤ c'.lease)
    (hcompleted : m'.completed + (if c.isCompleted then 1 else 0) =
      m.completed + if c'.isCompleted then 1 else 0)
    (hcursor : m'.nextFresh ≤ m.chunks.length) (hnodup : m'.retryQueue.Nodup)
    (hqueue : ∀ i, i ≠ id → (i ∈ m'.retryQueue ↔ i ∈ m.retryQueue))
    (hfresh : ∀ i d, i ≠ id → m.chunks[i]? = some d → i < m'.nextFresh → d.status ≠ .unassigned)
    (hends : ∀ a < m.cells.next, (m'.cells.leases a).endOffset = (m.cells.leases a).endOffset)
    (hnext : m.cells.next ≤ m'.cells.next) (hentry : m'.Entry id c') : m'.Books total where
  size := hsize.trans h.size
  bounded := h.bounded
  tiling := by
    rw [hchunks]
    exact h.tiling.replace hc (by rw [hrange]) (by rw [hrange])
  completed := by
    obtain ⟨hlt, rfl⟩ := List.getElem?_eq_some_iff.mp hc
    have hpos : m.chunks[id].isCompleted = true → 0 < m.chunks.countP Chunk.isCompleted := fun hp =>
      List.countP_pos_iff.mpr ⟨_, List.getElem_mem hlt, hp⟩
    rw [hchunks, List.countP_set hlt, ← h.completed]
    rw [← h.completed] at hpos
    by_cases hwas : m.chunks[id].isCompleted = true
    · have := hpos hwas
      rw [if_pos hwas] at hcompleted ⊢
      omega
    · rw [if_neg hwas] at hcompleted ⊢
      omega
  cursor := by simpa [hchunks] using hcursor
  nodup := hnodup
  queue i hi := by
    rw [hchunks, List.length_set]
    by_cases hid : i = id
    · exact hid ▸ lt_length hc
    · exact h.queue i ((hqueue i hid).mp hi)
  distinct i j d e hd he hde := by
    rw [hchunks, getElem?_set_some hc] at hd he
    have hold := fun k g hg => (h.entry k g hg).leased
    rcases hd with ⟨rfl, rfl⟩ | ⟨hi, hd⟩ <;> rcases he with ⟨rfl, rfl⟩ | ⟨hj, he⟩
    · rfl
    · rcases hlease with hl | hl
      · exact h.distinct i j c e hc he (hl ▸ hde)
      · have := hold j e he; omega
    · rcases hlease with hl | hl
      · exact h.distinct i j d c hd hc (hl ▸ hde)
      · have := hold i d hd; omega
    · exact h.distinct i j d e hd he hde
  entry i d hd := by
    rw [hchunks, getElem?_set_some hc] at hd
    rcases hd with ⟨rfl, rfl⟩ | ⟨hi, hd⟩
    · exact hentry
    · have e := h.entry i d hd
      exact { id := e.id
              end_ := fun hopen => (hends d.lease e.leased).trans (e.end_ hopen)
              fresh := hfresh i d hi hd
              queued := (hqueue i hi).trans e.queued
              leased := Nat.lt_of_lt_of_le e.leased hnext }

/-- A chunk is cut in two: one piece keeps its id and lease, the other is a
new chunk at the end of the list. -/
theorem Books.cut {m m' : ChunkManager} {total : Nat} {id : Nat} {c : Chunk} (h : m.Books total)
    (hc : m.chunks[id]? = some c) (c' d : Chunk) (hchunks : m'.chunks = m.chunks.set id c' ++ [d])
    (hsize : m'.totalSize = m.totalSize) (hc' : c' = { c with range := c'.range })
    (hopen : c.isCompleted = false) (hordered : c'.range.start ≤ c'.range.end_)
    (hordered' : d.range.start ≤ d.range.end_)
    (hcut : (c'.range.start = c.range.start ∧ c'.range.end_ + 1 = d.range.start ∧
        d.range.end_ = c.range.end_) ∨
      (d.range.start = c.range.start ∧ d.range.end_ + 1 = c'.range.start ∧
        c'.range.end_ = c.range.end_))
    (hlease : d.lease = m.cells.next)
    (hcompleted : m'.completed = m.completed + if d.isCompleted then 1 else 0)
    (hnextFresh : m'.nextFresh = m.nextFresh) (hqueue : m'.retryQueue = m.retryQueue)
    (hends : ∀ a < m.cells.next, a ≠ c.lease →
      (m'.cells.leases a).endOffset = (m.cells.leases a).endOffset)
    (hend : (m'.cells.leases c.lease).endOffset = c'.range.end_)
    (hnext : m.cells.next ≤ m'.cells.next) (hentry : m'.Entry m.chunks.length d) : m'.Books total where
  size := hsize.trans h.size
  bounded := h.bounded
  tiling := by
    rw [hchunks]
    exact h.tiling.split hc hordered hordered' hcut
  completed := by
    obtain ⟨hlt, rfl⟩ := List.getElem?_eq_some_iff.mp hc
    have hsame : c'.isCompleted = m.chunks[id].isCompleted := by rw [hc']; rfl
    rw [hchunks, List.countP_append, List.countP_set hlt, hsame, hopen, hcompleted, h.completed]
    simp [List.countP_cons]
  cursor := by
    have := h.cursor
    simp only [hchunks, hnextFresh, List.length_append, List.length_set]
    omega
  nodup := hqueue ▸ h.nodup
  queue i hi := by
    have := h.queue i (hqueue ▸ hi)
    simp only [hchunks, List.length_append, List.length_set]
    omega
  distinct i j e f he hf hef := by
    have hold := fun k g hg => (h.entry k g hg).leased
    have hkeep : ∀ (k : Nat) (g : Chunk), (m.chunks.set id c')[k]? = some g →
        ∃ g', m.chunks[k]? = some g' ∧ g'.lease = g.lease := by
      intro k g hg
      rcases (getElem?_set_some hc).mp hg with ⟨rfl, rfl⟩ | ⟨_, hg⟩
      · exact ⟨c, hc, by rw [hc']⟩
      · exact ⟨g, hg, rfl⟩
    rw [hchunks, getElem?_concat_some] at he hf
    rcases he with he | ⟨hi, rfl⟩ <;> rcases hf with hf | ⟨hj, rfl⟩
    · obtain ⟨e', he', hle⟩ := hkeep i e he
      obtain ⟨f', hf', hlf⟩ := hkeep j f hf
      exact h.distinct i j e' f' he' hf' (hle.trans (hef.trans hlf.symm))
    · obtain ⟨e', he', hle⟩ := hkeep i e he
      have := hold i e' he'; omega
    · obtain ⟨f', hf', hlf⟩ := hkeep j f hf
      have := hold j f' hf'; omega
    · exact hi.trans hj.symm
  entry i e he := by
    rw [hchunks, getElem?_concat_some, getElem?_set_some hc, List.length_set] at he
    rcases he with (⟨rfl, rfl⟩ | ⟨hi, he⟩) | ⟨rfl, rfl⟩
    · have e := h.entry i c hc
      exact { id := by rw [hc']; exact e.id
              end_ := fun _ => by rw [hc']; exact hend
              fresh := fun hi => by rw [hc']; exact e.fresh (hnextFresh ▸ hi)
              queued := by rw [hqueue, hc']; exact e.queued
              leased := by rw [hc']; exact Nat.lt_of_lt_of_le e.leased hnext }
    · have e' := h.entry i e he
      have hne : e.lease ≠ c.lease := fun heq => hi (h.distinct i id e c he hc heq)
      exact { id := e'.id
              end_ := fun hopen => (hends e.lease e'.leased hne).trans (e'.end_ hopen)
              fresh := fun hi => e'.fresh (hnextFresh ▸ hi)
              queued := by rw [hqueue]; exact e'.queued
              leased := Nat.lt_of_lt_of_le e'.leased hnext }
    · exact hentry

@[simp] theorem isCompleted_status (c : Chunk) : ({ c with status := .completed } : Chunk).isCompleted = true := rfl

theorem isFailed_open {c : Chunk} (hf : c.isFailed = true) : c.isCompleted = false := by
  unfold Chunk.isFailed at hf
  unfold Chunk.isCompleted
  split at hf
  · rename_i heq; rw [heq]; rfl
  · cases hf

theorem unassigned_open {c : Chunk} (hu : c.status = .unassigned) :
    c.isCompleted = false ∧ c.isFailed = false := by
  simp [Chunk.isCompleted, Chunk.isFailed, hu]

theorem inFlight_open {c : Chunk} (hf : c.isInFlight = true) :
    c.isCompleted = false ∧ c.isFailed = false := by
  unfold Chunk.isInFlight at hf
  unfold Chunk.isCompleted Chunk.isFailed
  split at hf
  · rename_i heq; rw [heq]; exact ⟨rfl, rfl⟩
  · cases hf

/-- An open chunk may be handed out; it leaves the retry queue. -/
theorem Books.hand {m : ChunkManager} {total id f : Nat} {c : Chunk} (h : m.Books total)
    (hc : m.chunks[id]? = some c) (hopen : c.isCompleted = false) (hf : f ≤ m.chunks.length)
    (hfresh : ∀ i d, i ≠ id → m.chunks[i]? = some d → i < f → d.status ≠ .unassigned)
    (workerId mirrorId now : Nat) :
    Books ({ m with retryQueue := m.retryQueue.erase id, nextFresh := f }.assign id c
      workerId mirrorId now).2 total := by
  have e := h.entry id c hc
  refine h.update hc _ rfl rfl rfl (.inl rfl) ?_ hf (h.nodup.erase id) ?_ hfresh
    (fun a ha => by rw [assign, alloc_lease_old ha]) (Nat.le_succ _) ?_
  · simp only [assign, hopen]
    rfl
  · intro i hi
    exact List.mem_erase_of_ne hi
  · exact { id := e.id
            end_ := fun _ => (congrArg _ (alloc_lease_old e.leased)).trans (e.end_ hopen)
            fresh := fun _ => by simp
            queued := by simp [assign, Chunk.isFailed, h.nodup.mem_erase_iff]
            leased := Nat.lt_succ_of_lt e.leased }

/-- A chunk that is not waiting to be retried may be handed out as it is. -/
theorem Books.assign {m : ChunkManager} {total id : Nat} {c : Chunk} (h : m.Books total)
    (hc : m.chunks[id]? = some c) (hopen : c.isCompleted = false) (hnot : c.isFailed = false)
    (workerId mirrorId now : Nat) : Books (m.assign id c workerId mirrorId now).2 total := by
  have hmem : id ∉ m.retryQueue := fun hq => by
    have := (h.entry id c hc).queued.mp hq
    rw [hnot] at this
    cases this
  have := h.hand hc hopen h.cursor (fun i d _ hd hi => (h.entry i d hd).fresh hi) workerId mirrorId now
  rwa [List.erase_of_not_mem hmem] at this

theorem Books.complete {m : ChunkManager} {total id : Nat} {c : Chunk} (h : m.Books total)
    (hc : m.chunks[id]? = some c) (hopen : c.isCompleted = false) (hnot : c.isFailed = false) :
    Books (m.complete id c) total := by
  have e := h.entry id c hc
  refine h.update hc _ rfl rfl rfl (.inl rfl) ?_ h.cursor h.nodup (fun _ _ => Iff.rfl)
    (fun i d _ hd hi => (h.entry i d hd).fresh hi) (fun _ _ => rfl) le_rfl ?_
  · simp [ChunkManager.complete, hopen]
  · exact { id := e.id
            end_ := fun hopen => by simp at hopen
            fresh := fun _ => by simp
            queued := e.queued.trans (by rw [hnot]; simp [Chunk.isFailed])
            leased := e.leased }

/-- An open chunk that is not waiting already may be put back for a retry,
with new retry fields. -/
theorem Books.requeue {m : ChunkManager} {total id : Nat} {c c' : Chunk} (h : m.Books total)
    (hc : m.chunks[id]? = some c) (hopen : c.isCompleted = false) (hnot : c.isFailed = false)
    (hsame : c' = { c with retries := c'.retries, notBefore := c'.notBefore }) (reason : String) :
    Books (m.requeue id c' reason) total := by
  have e := h.entry id c hc
  have hmem : id ∉ m.retryQueue := fun hq => by
    have := e.queued.mp hq
    rw [hnot] at this
    cases this
  refine h.update hc { c' with status := .failed reason c'.retries } rfl rfl
    (by rw [hsame]) (.inl (by rw [hsame])) ?_ h.cursor ?_ ?_
    (fun i d _ hd hi => (h.entry i d hd).fresh hi) (fun _ _ => rfl) le_rfl ?_
  · simp only [ChunkManager.requeue, hopen]
    rfl
  · refine List.Nodup.append h.nodup (List.nodup_singleton id) ?_
    simpa using hmem
  · intro i hi
    simp [ChunkManager.requeue, hi]
  · exact { id := by rw [hsame]; exact e.id
            end_ := fun _ => by rw [hsame]; exact e.end_ hopen
            fresh := fun _ => by simp
            queued := by simp [ChunkManager.requeue, Chunk.isFailed]
            leased := by rw [hsame]; exact e.leased }

/-- A chunk in flight may be given a new lease that ends where its range does. -/
theorem Books.relet {m : ChunkManager} {total id pos : Nat} {c : Chunk} (h : m.Books total)
    (hc : m.chunks[id]? = some c) : Books (m.relet id c pos c.range.end_).2 total := by
  have e := h.entry id c hc
  refine h.update hc _ rfl rfl rfl (.inr le_rfl) rfl h.cursor h.nodup (fun _ _ => Iff.rfl)
    (fun i d _ hd hi => (h.entry i d hd).fresh hi)
    (fun a ha => by rw [ChunkManager.relet, alloc_lease_old ha]) (Nat.le_succ _) ?_
  exact { id := e.id
          end_ := fun _ => by simp [ChunkManager.relet]
          fresh := e.fresh
          queued := e.queued
          leased := Nat.lt_succ_self _ }

/-- The written part of an open chunk may be split off. -/
theorem Books.splitWritten {m : ChunkManager} {total id pos : Nat} {c : Chunk} (h : m.Books total)
    (hc : m.chunks[id]? = some c) (hopen : c.isCompleted = false) (hstart : c.range.start < pos)
    (hend : pos ≤ c.range.end_) : Books (m.splitWritten id c pos).2 total := by
  have e := h.entry id c hc
  refine h.cut hc { c with range := ⟨pos, c.range.end_⟩ }
    { Chunk.new m.chunks.length ⟨c.range.start, pos - 1⟩ m.cells.next with status := .completed }
    (by simp [ChunkManager.splitWritten, push]) rfl rfl hopen hend
    (by simp only [Chunk.new]; omega) (.inr ?_) rfl (by simp [ChunkManager.splitWritten, push]) rfl rfl
    (fun a ha _ => by rw [ChunkManager.splitWritten, push, alloc_lease_old ha])
    ((congrArg _ (alloc_lease_old e.leased)).trans (e.end_ hopen)) (Nat.le_succ _) ?_
  · exact ⟨rfl, Nat.sub_add_cancel (by omega), rfl⟩
  · exact { id := rfl
            end_ := fun hopen => by simp at hopen
            fresh := fun _ => by simp
            queued := by
              simp only [Chunk.isFailed]
              exact iff_of_false (fun hq => Nat.lt_irrefl _ (h.queue _ hq)) (by simp)
            leased := Nat.lt_succ_self _ }

/-- The tail of an open chunk may be cut off and become a chunk of its own. -/
theorem Books.truncate_push {m : ChunkManager} {total id end_ : Nat} {c : Chunk} (h : m.Books total)
    (hc : m.chunks[id]? = some c) (hopen : c.isCompleted = false) (hstart : c.range.start ≤ end_)
    (hend : end_ < c.range.end_) :
    Books ((m.truncate id c end_).push ⟨end_ + 1, c.range.end_⟩ .unassigned) total := by
  have e := h.entry id c hc
  refine h.cut hc { c with range := ⟨c.range.start, end_⟩ }
    (Chunk.new m.chunks.length ⟨end_ + 1, c.range.end_⟩ m.cells.next)
    (by simp [push, truncate, Chunk.new]) rfl rfl hopen hstart hend (.inl ⟨rfl, rfl, rfl⟩) rfl rfl rfl rfl
    ?_ ?_ (Nat.le_succ _) ?_
  · intro a ha hne
    rw [push, truncate, alloc_lease_old (by exact ha), storeEnd_lease, if_neg hne]
  · rw [push, truncate, alloc_lease_old (by exact e.leased), storeEnd_lease, if_pos rfl]
  · exact { id := rfl
            end_ := fun _ => congrArg _ (alloc_lease_new _ _)
            fresh := fun hi => absurd h.cursor (Nat.not_le.mpr hi)
            queued := iff_of_false (fun hq => Nat.lt_irrefl _ (h.queue _ hq)) (by simp [Chunk.isFailed, Chunk.new])
            leased := Nat.lt_succ_self _ }

end ChunkManager

end Hyperfetch
