import Hyperfetch.Chunk.Books

/-!
# What the manager's operations do

One lemma per operation says all it can do, in terms of the primitives: from
balanced books the bounds each primitive asks for hold. That every operation
keeps the books follows from these, and so does everything the workers rely
on.
-/

namespace Hyperfetch

open Weft

namespace ChunkManager

variable {m : ChunkManager} {total : Nat}

/-- A chunk handed out, and the manager that is left. -/
def handing (r : Chunk × ChunkManager) : Option Chunk × ChunkManager := (some r.1, r.2)

theorem Books.valid (h : m.Books total) {id : Nat} {c : Chunk} (hc : m.chunks[id]? = some c) :
    c.range.start ≤ c.range.end_ := h.tiling.nonempty c (List.mem_of_getElem? hc)

theorem Books.inFile (h : m.Books total) {id : Nat} {c : Chunk} (hc : m.chunks[id]? = some c) :
    c.range.end_ < total := by
  have hpos : 0 < cover (·.range.start) (·.range.end_) c.range.end_ m.chunks :=
    cover_pos_iff.mpr ⟨c, List.mem_of_getElem? hc, h.valid hc, le_rfl⟩
  rw [h.tiling.once] at hpos
  split at hpos <;> omega

/-- Every byte of the file is in some chunk. -/
theorem Books.holds (h : m.Books total) {b : Nat} (hb : b < total) :
    ∃ c ∈ m.chunks, c.range.start ≤ b ∧ b ≤ c.range.end_ := by
  refine cover_pos_iff.mp (?_ : 0 < cover (·.range.start) (·.range.end_) b m.chunks)
  rw [h.tiling.once, if_pos ⟨Nat.zero_le b, hb⟩]
  omega

theorem not_completed_of_ne {c : Chunk} (h : ¬c.isCompleted = true) : c.isCompleted = false :=
  Bool.eq_false_iff.mpr h

/-! ## `get_next_work` -/

/-- `get_next_work` hands out a failed or an unassigned chunk, or only moves
the cursor; below the cursor nothing stays unassigned. -/
theorem getNextWork_cases (h : m.Books total) (workerId mirrorId now : Nat) :
    (∃ id c f, m.chunks[id]? = some c ∧ (c.isFailed = true ∨ c.status = .unassigned) ∧
        f ≤ m.chunks.length ∧
        (∀ i d, i ≠ id → m.chunks[i]? = some d → i < f → d.status ≠ .unassigned) ∧
        m.getNextWork workerId mirrorId now = handing
          ({ m with retryQueue := m.retryQueue.erase id, nextFresh := f }.assign id c
            workerId mirrorId now)) ∨
      ∃ f, f ≤ m.chunks.length ∧
        (∀ i d, m.chunks[i]? = some d → i < f → d.status ≠ .unassigned) ∧
        m.getNextWork workerId mirrorId now = (none, { m with nextFresh := f }) := by
  have hbelow : ∀ i d, m.chunks[i]? = some d → i < m.nextFresh → d.status ≠ .unassigned :=
    fun i d hd hi => (h.entry i d hd).fresh hi
  unfold getNextWork
  split
  · exact .inr ⟨m.nextFresh, h.cursor, hbelow, rfl⟩
  · cases hq : m.retryQueue.find? (m.ready now) with
    | some id =>
      have hid := List.mem_of_find?_eq_some hq
      obtain ⟨c, hc⟩ : ∃ c, m.chunks[id]? = some c :=
        ⟨_, List.getElem?_eq_getElem (h.queue id hid)⟩
      refine .inl ⟨id, c, m.nextFresh, hc, .inl ((h.entry id c hc).queued.mp hid), h.cursor,
        fun i d _ hd hi => hbelow i d hd hi, ?_⟩
      simp only [hc]
      rfl
    | none =>
      cases hk : (m.chunks.drop m.nextFresh).findIdx? (·.status == .unassigned) with
      | some k =>
        obtain ⟨hlt, hun, hfirst⟩ := List.findIdx?_eq_some_iff_getElem.mp hk
        simp only [List.length_drop] at hlt
        simp only [List.getElem_drop, beq_iff_eq] at hun hfirst
        have hlen : m.nextFresh + k < m.chunks.length := by omega
        have hc : m.chunks[m.nextFresh + k]? = some m.chunks[m.nextFresh + k] :=
          List.getElem?_eq_getElem hlen
        have hmem : m.nextFresh + k ∉ m.retryQueue := fun hin => by
          have := (h.entry _ _ hc).queued.mp hin
          simp [Chunk.isFailed, hun] at this
        refine .inl ⟨_, _, m.nextFresh + k + 1, hc, .inr hun, hlen, ?_, ?_⟩
        · intro i d hne hd hi
          by_cases hlow : i < m.nextFresh
          · exact hbelow i d hd hlow
          · -- between the cursor and the chunk found, none was unassigned
            obtain ⟨hilt, rfl⟩ := List.getElem?_eq_some_iff.mp hd
            have := hfirst (i - m.nextFresh) (by omega)
            simpa [show m.nextFresh + (i - m.nextFresh) = i by omega] using this
        · simp only [hc, List.erase_of_not_mem hmem]
          rfl
      | none =>
        refine .inr ⟨_, Nat.max_le.mpr ⟨h.cursor, le_rfl⟩, ?_, rfl⟩
        intro i d hd _ hun
        by_cases hlow : i < m.nextFresh
        · exact hbelow i d hd hlow hun
        · have hin : d ∈ m.chunks.drop m.nextFresh := by
            refine List.mem_of_getElem? (i := i - m.nextFresh) ?_
            rw [List.getElem?_drop, show m.nextFresh + (i - m.nextFresh) = i by omega, hd]
          have := List.findIdx?_eq_none_iff.mp hk d hin
          simp [hun] at this

theorem Books.getNextWork (h : m.Books total) (workerId mirrorId now : Nat) :
    Books (m.getNextWork workerId mirrorId now).2 total := by
  rcases getNextWork_cases h workerId mirrorId now with
    ⟨id, c, f, hc, hst, hf, hfresh, heq⟩ | ⟨f, hf, hfresh, heq⟩ <;> rw [heq]
  · have hopen : c.isCompleted = false := hst.elim isFailed_open fun hu => (unassigned_open hu).1
    exact h.hand hc hopen hf hfresh workerId mirrorId now
  · exact { h with cursor := hf
                   entry := fun i c hc => { h.entry i c hc with fresh := hfresh i c hc } }

/-! ## `assign_at` -/

/-- `assign_at` hands out an unassigned chunk whole or, with its tail cut
off, up to `end_`. -/
theorem assignAt_cases (workerId mirrorId start end_ now : Nat) :
    m.assignAt workerId mirrorId start end_ now = (none, m) ∨
      ∃ id c, m.chunks[id]? = some c ∧ c.status = .unassigned ∧
        (m.assignAt workerId mirrorId start end_ now =
            handing (m.assign id c workerId mirrorId now) ∨
          (c.range.start ≤ end_ ∧ end_ < c.range.end_ ∧
            m.assignAt workerId mirrorId start end_ now = handing
              (((m.truncate id c end_).push ⟨end_ + 1, c.range.end_⟩ .unassigned).assign id
                { c with range := ⟨c.range.start, end_⟩ } workerId mirrorId now))) := by
  unfold assignAt
  split
  · exact .inl rfl
  · rename_i hgo
    simp only [Bool.or_eq_true, decide_eq_true_eq, not_or, Nat.not_lt] at hgo
    cases hi : m.chunks.findIdx? (fun c => c.status == .unassigned && c.range.start == start) with
    | none => exact .inl rfl
    | some id =>
      obtain ⟨hlt, hat, _⟩ := List.findIdx?_eq_some_iff_getElem.mp hi
      simp only [Bool.and_eq_true, beq_iff_eq] at hat
      have hc : m.chunks[id]? = some m.chunks[id] := List.getElem?_eq_getElem hlt
      refine .inr ⟨id, m.chunks[id], hc, hat.1, ?_⟩
      simp only [hc]
      split
      · rename_i hcut
        exact .inr ⟨hat.2 ▸ hgo.2, hcut, rfl⟩
      · exact .inl rfl

/-- After a cut, the chunk keeps its place. -/
theorem truncate_push_get {id end_ : Nat} {c : Chunk} (hc : m.chunks[id]? = some c) (range : ByteRange) :
    ((m.truncate id c end_).push range .unassigned).chunks[id]? =
      some { c with range := ⟨c.range.start, end_⟩ } := by
  simp only [push, truncate]
  rw [getElem?_concat_some, getElem?_set_some hc]
  exact .inl (.inl ⟨rfl, rfl⟩)

/-- And the rest comes last. -/
theorem truncate_push_last {id end_ : Nat} {c : Chunk} (range : ByteRange) :
    ((m.truncate id c end_).push range .unassigned).chunks[m.chunks.length]? =
      some (Chunk.new m.chunks.length range m.cells.next) := by
  simp only [push, truncate]
  rw [getElem?_concat_some]
  exact .inr ⟨by simp, by simp [Chunk.new]⟩

theorem Books.assignAt (h : m.Books total) (workerId mirrorId start end_ now : Nat) :
    Books (m.assignAt workerId mirrorId start end_ now).2 total := by
  rcases assignAt_cases (m := m) workerId mirrorId start end_ now with heq | ⟨id, c, hc, hu, heq | ⟨hs, he, heq⟩⟩
  · rw [heq]
    exact h
  · rw [heq]
    exact h.assign hc (unassigned_open hu).1 (unassigned_open hu).2 workerId mirrorId now
  · rw [heq]
    exact (h.truncate_push hc (unassigned_open hu).1 hs he).assign (truncate_push_get hc _)
      (unassigned_open hu).1 (unassigned_open hu).2 workerId mirrorId now

/-! ## `take_over_silent` -/

theorem Books.revoke (h : m.Books total) (lease : Nat) :
    Books { m with cells := m.cells.revoke lease } total :=
  h.withCells (fun _ _ => revoke_endOffset _ _ _) le_rfl

/-- A takeover revokes the chunk's lease. If everything was written, the
chunk is completed; else its rest gets a new lease and is handed out. -/
theorem takeOver_cases (h : m.Books total) {id : Nat} {c : Chunk} (hc : m.chunks[id]? = some c)
    (hflight : c.isInFlight = true) (thiefWorkerId thiefMirrorId now : Nat) :
    let pos := max (m.cells.leases c.lease).currentOffset c.range.start
    let revoked := { m with cells := m.cells.revoke c.lease }
    (c.range.end_ < pos ∧
        m.takeOver id thiefWorkerId thiefMirrorId now = (none, revoked.complete id c)) ∨
      (pos ≤ c.range.end_ ∧
        m.takeOver id thiefWorkerId thiefMirrorId now =
          handing (((revoked.rest id c pos).2.relet id (revoked.rest id c pos).1 pos
            c.range.end_).2.assign id
              ((revoked.rest id c pos).2.relet id (revoked.rest id c pos).1 pos
                c.range.end_).1 thiefWorkerId thiefMirrorId now)) := by
  intro pos revoked
  have hend : (revoked.cells.leases c.lease).endOffset = c.range.end_ :=
    ((h.revoke c.lease).entry id c hc).end_ (inFlight_open hflight).1
  have hcur : (revoked.cells.leases c.lease).currentOffset = (m.cells.leases c.lease).currentOffset := by
    simp [revoked, Cells.revoke]
  unfold takeOver
  simp only [hc]
  rw [show m.cells.revoke c.lease = revoked.cells from rfl, hend, hcur]
  split
  · rename_i hdone
    exact .inl ⟨hdone, rfl⟩
  · rename_i hleft
    exact .inr ⟨Nat.not_lt.mp hleft, rfl⟩

theorem rest_spec (h : m.Books total) {id pos : Nat} {c : Chunk} (hc : m.chunks[id]? = some c)
    (hopen : c.isCompleted = false) (hstart : c.range.start ≤ pos) (hend : pos ≤ c.range.end_) :
    (m.rest id c pos).1 = { c with range := ⟨pos, c.range.end_⟩ } ∧
      (m.rest id c pos).2.chunks[id]? = some { c with range := ⟨pos, c.range.end_⟩ } ∧
      Books (m.rest id c pos).2 total := by
  unfold rest
  split
  · rename_i hlt
    refine ⟨rfl, ?_, h.splitWritten hc hopen hlt hend⟩
    simp only [splitWritten, push]
    rw [getElem?_concat_some, getElem?_set_some hc]
    exact .inl (.inl ⟨rfl, rfl⟩)
  · have : pos = c.range.start := by omega
    subst this
    exact ⟨rfl, hc, h⟩

theorem relet_get {id pos end_ : Nat} {c : Chunk} (hc : m.chunks[id]? = some c) :
    (m.relet id c pos end_).2.chunks[id]? = some (m.relet id c pos end_).1 :=
  (getElem?_set_some hc).mpr (.inl ⟨rfl, rfl⟩)

theorem Books.takeOver (h : m.Books total) {id : Nat} {c : Chunk} (hc : m.chunks[id]? = some c)
    (hflight : c.isInFlight = true) (thiefWorkerId thiefMirrorId now : Nat) :
    Books (m.takeOver id thiefWorkerId thiefMirrorId now).2 total := by
  obtain ⟨hopen, hnot⟩ := inFlight_open hflight
  rcases takeOver_cases h hc hflight thiefWorkerId thiefMirrorId now with ⟨_, heq⟩ | ⟨hle, heq⟩
  · rw [heq]
    exact (h.revoke c.lease).complete hc hopen hnot
  · rw [heq]
    obtain ⟨hrest, hget, hbooks⟩ := rest_spec (h.revoke c.lease) hc hopen (le_max_right _ _) hle
    rw [hrest]
    exact (hbooks.relet hget).assign (relet_get hget) hopen hnot thiefWorkerId thiefMirrorId now

/-! ## `steal_work` -/

/-- A steal truncates the victim somewhere before its end and hands out a new
chunk for the rest. -/
theorem stealFrom_cases (h : m.Books total) {id : Nat} {c : Chunk} (hc : m.chunks[id]? = some c)
    (hopen : c.isCompleted = false) {minBytes : Nat} (hmin : 0 < minBytes)
    (thiefWorkerId thiefMirrorId : Nat) (share : Share) (now : Nat) :
    m.stealFrom id thiefWorkerId thiefMirrorId minBytes share now = (none, m) ∨
      ∃ end_, c.range.start ≤ end_ ∧ end_ < c.range.end_ ∧
        m.stealFrom id thiefWorkerId thiefMirrorId minBytes share now =
          Prod.map (Option.map (id, ·)) (fun m => m) (handing
            (((m.truncate id c end_).push ⟨end_ + 1, c.range.end_⟩ .unassigned).assign m.chunks.length
              (Chunk.new m.chunks.length ⟨end_ + 1, c.range.end_⟩ m.cells.next)
              thiefWorkerId thiefMirrorId now)) := by
  have hend := (h.entry id c hc).end_ hopen
  unfold stealFrom
  simp only [hc, hend]
  split
  · exact .inl rfl
  · cases hshare : share.bytes (c.unreceived m.cells) with
    | none => exact .inl rfl
    | some keep =>
      dsimp only
      split
      · exact .inl rfl
      · rename_i hleft hsplit
        have hvalid := h.valid hc
        have hun : c.unreceived m.cells + c.range.start ≤ c.range.end_ + 1 := by
          have := hleft
          simp only [Chunk.unreceived, hend, saturatingAdd] at this ⊢
          omega
        simp only [not_or, Nat.not_lt] at hsplit
        have hkeep : 0 < max keep 1 := by omega
        generalize hstolen : c.unreceived m.cells - max keep 1 = stolen at hsplit ⊢
        refine .inr ⟨c.range.end_ - stolen, by omega, by omega, ?_⟩
        have hnext : c.range.end_ + 1 - stolen = c.range.end_ - stolen + 1 := by omega
        rw [hnext, ByteRange.new_eq_ok (by omega), Nat.add_sub_cancel]
        simp only [truncate, List.length_set]
        rfl

theorem Books.stealFrom (h : m.Books total) {id : Nat} {c : Chunk} (hc : m.chunks[id]? = some c)
    (hopen : c.isCompleted = false) {minBytes : Nat} (hmin : 0 < minBytes)
    (thiefWorkerId thiefMirrorId : Nat) (share : Share) (now : Nat) :
    Books (m.stealFrom id thiefWorkerId thiefMirrorId minBytes share now).2 total := by
  rcases stealFrom_cases h hc hopen hmin thiefWorkerId thiefMirrorId share now with
    heq | ⟨end_, hs, he, heq⟩ <;> rw [heq]
  · exact h
  · exact (h.truncate_push hc hopen hs he).assign (truncate_push_last _) rfl rfl
      thiefWorkerId thiefMirrorId now

/-! ## Settling -/

theorem Books.abort (h : m.Books total) (chunkId : Nat) (reason : String) : Books (m.abort chunkId reason) total := by
  unfold ChunkManager.abort
  split
  · exact { h with entry := fun i c hc => { h.entry i c hc with } }
  · exact h

theorem markCompleted_cases (chunkId : Nat) :
    m.markCompleted chunkId = .error (.notFound chunkId) ∨
      ∃ c, m.chunks[chunkId]? = some c ∧
        ((c.isCompleted = true ∧ m.markCompleted chunkId = .ok m) ∨
          (c.isCompleted = false ∧ m.markCompleted chunkId = .ok (m.complete chunkId c))) := by
  unfold markCompleted
  cases hc : m.chunks[chunkId]? with
  | none => exact .inl rfl
  | some c =>
    refine .inr ⟨c, rfl, ?_⟩
    dsimp only
    split
    · rename_i hdone
      exact .inl ⟨hdone, rfl⟩
    · rename_i hopen
      exact .inr ⟨not_completed_of_ne hopen, rfl⟩

/-- A chunk that is not waiting to be retried may be marked completed. -/
theorem Books.markCompleted (h : m.Books total) {chunkId : Nat} {m' : ChunkManager}
    (hnot : ∀ c, m.chunks[chunkId]? = some c → c.isFailed = false)
    (hok : m.markCompleted chunkId = .ok m') : m'.Books total := by
  rcases markCompleted_cases (m := m) chunkId with heq | ⟨c, hc, ⟨_, heq⟩ | ⟨hopen, heq⟩⟩ <;>
    rw [heq] at hok <;> cases hok
  · exact h
  · exact h.complete hc hopen (hnot c hc)

/-- `mark_failed` completes the chunk if its worker recorded every byte; else
it splits off what was written and puts the rest back. -/
theorem markFailed_cases (h : m.Books total) {chunkId : Nat} {c : Chunk} (hc : m.chunks[chunkId]? = some c)
    (reason : String) (minDelay : Nat) (counts : Bool) (now : Nat) (backoffDelay : Nat → Nat) :
    (c.isCompleted = true ∧ m.markFailed chunkId reason minDelay counts now backoffDelay = .ok m) ∨
      (c.isCompleted = false ∧ c.range.end_ < (m.cells.leases c.lease).currentOffset ∧
        m.markFailed chunkId reason minDelay counts now backoffDelay = .ok (m.complete chunkId c)) ∨
      ∃ pos made, c.isCompleted = false ∧ c.range.start ≤ pos ∧ pos ≤ c.range.end_ ∧
        (c.range.start < pos → pos ≤ (m.cells.leases c.lease).currentOffset) ∧
        m.markFailed chunkId reason minDelay counts now backoffDelay =
          .ok ((m.rest chunkId c pos).2.requeue chunkId
            ((m.rest chunkId c pos).1.retryAfter made counts minDelay now backoffDelay) reason) := by
  have hvalid := h.valid hc
  unfold markFailed
  simp only [hc]
  split
  · rename_i hdone
    exact .inl ⟨hdone, rfl⟩
  · rename_i hopen
    have hopen := not_completed_of_ne hopen
    generalize hpos : min (max (m.cells.leases c.lease).currentOffset c.range.start)
      (saturatingAdd c.range.end_ 1) = pos
    unfold saturatingAdd at hpos
    split
    · rename_i hdone
      refine .inr (.inl ⟨hopen, by omega, ?_⟩)
      simp [markCompleted, hc, hopen]
    · rename_i hleft
      have := h.inFile hc
      have := h.bounded
      exact .inr (.inr ⟨pos, _, hopen, by omega, by omega, by omega, rfl⟩)

theorem retryAfter_eq (c : Chunk) (made counts : Bool) (minDelay now : Nat) (backoffDelay : Nat → Nat) :
    ∃ retries notBefore,
      c.retryAfter made counts minDelay now backoffDelay = { c with retries, notBefore } := by
  unfold Chunk.retryAfter
  split
  · exact ⟨_, _, rfl⟩
  · split
    · exact ⟨_, _, rfl⟩
    · exact ⟨c.retries, _, rfl⟩

/-- What is left of an open chunk may be put back for a retry. -/
theorem Books.requeueRest (h : m.Books total) {id pos : Nat} {c : Chunk} (hc : m.chunks[id]? = some c)
    (hopen : c.isCompleted = false) (hnot : c.isFailed = false) (hstart : c.range.start ≤ pos)
    (hend : pos ≤ c.range.end_) {made counts : Bool} {minDelay now : Nat} {backoffDelay : Nat → Nat}
    {reason : String} :
    Books ((m.rest id c pos).2.requeue id
      ((m.rest id c pos).1.retryAfter made counts minDelay now backoffDelay) reason) total := by
  obtain ⟨hrest, hget, hbooks⟩ := rest_spec h hc hopen hstart hend
  obtain ⟨retries, notBefore, hretry⟩ :=
    retryAfter_eq (m.rest id c pos).1 made counts minDelay now backoffDelay
  rw [hretry, hrest]
  exact hbooks.requeue hget hopen hnot rfl reason

/-- A chunk that is not waiting already may be marked failed. -/
theorem Books.markFailed (h : m.Books total) {chunkId : Nat} {reason : String} {minDelay : Nat} {counts : Bool}
    {now : Nat} {backoffDelay : Nat → Nat} {m' : ChunkManager}
    (hnot : ∀ c, m.chunks[chunkId]? = some c → c.isFailed = false)
    (hok : m.markFailed chunkId reason minDelay counts now backoffDelay = .ok m') : m'.Books total := by
  cases hc : m.chunks[chunkId]? with
  | none => simp [ChunkManager.markFailed, hc] at hok
  | some c =>
    rcases markFailed_cases h hc reason minDelay counts now backoffDelay with
      ⟨_, heq⟩ | ⟨hopen, _, heq⟩ | ⟨pos, made, hopen, hs, he, _, heq⟩ <;>
      rw [heq] at hok <;> cases hok
    · exact h
    · exact h.complete hc hopen (hnot c hc)
    · exact h.requeueRest hc hopen (hnot c hc) hs he

end ChunkManager

end Hyperfetch
