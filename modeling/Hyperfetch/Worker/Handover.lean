import Hyperfetch.Worker.Custody

/-!
# The operations keep custody

Each operation of the manager keeps `Custody`, with the chunk it hands out in
the hands of the worker that asked. A takeover is the delicate one: the lease
is revoked before anything is split off, so its steps are put in the order in
which each of them keeps custody (`rest_revoke`).
-/

namespace Hyperfetch

namespace ChunkManager

variable {m : ChunkManager} {total : Nat} {written : Nat → Bool} {held : Nat → Option Chunk}

/-- Who holds what once worker `w` was handed `r`. -/
def given (held : Nat → Option Chunk) (w : Nat) : Option Chunk → Nat → Option Chunk
  | none => held
  | some k => Function.update held w (some k)

/-- What an operation leaves, with what it handed to worker `w`. -/
structure Serves (m : ChunkManager) (written : Nat → Bool) (held : Nat → Option Chunk) (w : Nat)
    (r : Option Chunk × ChunkManager) : Prop where
  custody : Custody r.2 written (given held w r.1)
  grows : m.Grows r.2

theorem Books.only (h : m.Books total) {id : Nat} {c : Chunk} (hc : m.chunks[id]? = some c) :
    ∀ (i : Nat) (d : Chunk), m.chunks[i]? = some d → d.lease = c.lease → i = id :=
  fun i d hd heq => h.distinct i id d c hd hc heq

/-- Custody reads the chunks and the cells only. -/
theorem Custody.congr {m' : ChunkManager} (h : Custody m written held) (hchunks : m'.chunks = m.chunks)
    (hcells : m'.cells = m.cells) : Custody m' written held := by
  refine ⟨?_, ?_, ?_, ?_, ?_, h.apart⟩
  · rw [hchunks]; exact h.done
  · rw [hchunks, hcells]; exact h.written
  · rw [hchunks, hcells]; exact h.inForce
  · rw [hcells]; exact h.allocated
  · rw [hchunks, hcells]; exact h.owns

theorem Grows.congr {m' m'' : ChunkManager} (h : m.Grows m') (hchunks : m''.chunks = m'.chunks)
    (hcells : m''.cells = m'.cells) : m.Grows m'' := by
  refine ⟨?_, ?_, ?_, ?_, ?_⟩
  · rw [hcells]; exact h.next
  · rw [hcells]; exact h.offset
  · rw [hcells]; exact h.end_
  · rw [hcells]; exact h.revoked
  · rw [hchunks]; exact h.lease

/-- Handing out an open chunk whose lease nobody holds. -/
theorem Custody.assign {id : Nat} {c : Chunk} (h : Custody m written held) (hleased : m.Leased)
    (honly : ∀ (i : Nat) (d : Chunk), m.chunks[i]? = some d → d.lease = c.lease → i = id)
    (hc : m.chunks[id]? = some c) (hid : c.id = id) (hopen : c.isCompleted = false)
    (hlease : ∀ w k, held w = some k → k.lease ≠ c.lease)
    (hfree : ∀ w k, held w = some k → (m.cells.leases k.lease).revoked = false → k.id ≠ id)
    (w mirrorId now : Nat) :
    Custody (m.assign id c w mirrorId now).2 written
      (Function.update held w (some (m.assign id c w mirrorId now).1)) := by
  have hlt := hleased id c hc
  have hset : Custody (m.assign id c w mirrorId now).2 written held := by
    refine h.update hc hleased honly rfl (Nat.le_succ _) (fun a ha _ => ?_) (fun hr => ?_)
      (fun hcomp => by simp [Chunk.isCompleted] at hcomp) (fun _ => ?_) (fun _ => ?_) ?_
    · rw [ChunkManager.assign, alloc_lease_old ha]
      exact ⟨rfl, rfl⟩
    · rw [ChunkManager.assign, alloc_lease_old hlt]
      exact hr
    · simp only [ChunkManager.assign, alloc_lease_old hlt]
      exact h.written id c hc hopen
    · simp only [ChunkManager.assign, alloc_lease_old hlt]
      exact h.inForce id c hc hopen
    · intro w' k hk hkid hforce
      rw [ChunkManager.assign, alloc_lease_old (h.allocated w' k hk)] at hforce
      exact absurd hkid (hfree w' k hk hforce)
  subst hid
  exact hset.take (c := (m.assign c.id c w mirrorId now).1)
    ((getElem?_set_some hc).mpr (.inl ⟨rfl, rfl⟩)) rfl rfl (Nat.lt_succ_of_lt hlt) hlease

/-- A chunk that is not in flight may be handed out as the books have it. -/
theorem serves_assign {id : Nat} {c : Chunk} (h : Custody m written held) (hbooks : m.Books total)
    (hc : m.chunks[id]? = some c) (hopen : c.isCompleted = false) (hflight : c.isInFlight = false)
    (w mirrorId now : Nat) : Serves m written held w (handing (m.assign id c w mirrorId now)) :=
  ⟨h.assign hbooks.leases (hbooks.only hc) hc (hbooks.entry id c hc).id hopen
    (h.free hbooks hc hopen hflight).1 (h.free hbooks hc hopen hflight).2 w mirrorId now,
    grows_assign hc w mirrorId now⟩

theorem unassigned_idle {c : Chunk} (hu : c.status = .unassigned) : c.isInFlight = false := by
  simp [Chunk.isInFlight, hu]

theorem failed_idle {c : Chunk} (hf : c.isFailed = true) : c.isInFlight = false := by
  unfold Chunk.isFailed at hf
  unfold Chunk.isInFlight
  split at hf
  · rename_i heq; rw [heq]
  · cases hf

theorem serves_getNextWork (h : Custody m written held) (hbooks : m.Books total) (w mirrorId now : Nat) :
    Serves m written held w (m.getNextWork w mirrorId now) := by
  rcases getNextWork_cases hbooks w mirrorId now with
    ⟨id, c, f, hc, hst, _, _, heq⟩ | ⟨f, _, _, heq⟩ <;> rw [heq]
  · have hopen : c.isCompleted = false := hst.elim isFailed_open fun hu => (unassigned_open hu).1
    have hidle : c.isInFlight = false := hst.elim failed_idle unassigned_idle
    obtain ⟨hcustody, hgrows⟩ := serves_assign h hbooks hc hopen hidle w mirrorId now
    exact ⟨hcustody.congr rfl rfl, hgrows.congr rfl rfl⟩
  · exact ⟨h.congr rfl rfl, (Grows.refl m).congr rfl rfl⟩

/-- Cutting the tail off an open chunk. -/
theorem Custody.truncate_push {id end_ : Nat} {c : Chunk} (h : Custody m written held)
    (hbooks : m.Books total) (hc : m.chunks[id]? = some c) (hopen : c.isCompleted = false)
    (hend : end_ < c.range.end_) :
    Custody ((m.truncate id c end_).push ⟨end_ + 1, c.range.end_⟩ .unassigned) written held ∧
      m.Grows ((m.truncate id c end_).push ⟨end_ + 1, c.range.end_⟩ .unassigned) := by
  have hcell : ∀ a, ((m.truncate id c end_).cells.leases a).currentOffset = (m.cells.leases a).currentOffset ∧
      ((m.truncate id c end_).cells.leases a).revoked = (m.cells.leases a).revoked := by
    intro a
    simp only [truncate, Cells.storeEnd, Function.update_apply]
    split
    · rename_i heq; rw [heq]; exact ⟨rfl, rfl⟩
    · exact ⟨rfl, rfl⟩
  have hcut : Custody (m.truncate id c end_) written held := by
    refine h.update hc hbooks.leases (hbooks.only hc) rfl le_rfl (fun a _ _ => hcell a)
      (fun hr => (hcell c.lease).2.trans hr) (fun hcomp => absurd (hopen.symm.trans hcomp) (by decide))
      (fun _ => ?_) (fun _ => (hcell c.lease).2.trans (h.inForce id c hc hopen)) ?_
    · exact (hcell c.lease).1 ▸ h.written id c hc hopen
    · intro w k hk hkid hforce
      rw [(hcell k.lease).2] at hforce
      obtain ⟨d, hd, hflight, hl⟩ := h.owns w k hk hforce
      rw [hkid, hc] at hd
      cases hd
      exact ⟨hflight, hl⟩
  have hleased : (m.truncate id c end_).Leased := by
    intro i d hd
    rcases (getElem?_set_some hc).mp hd with ⟨rfl, rfl⟩ | ⟨_, hd⟩
    · exact hbooks.leases i c hc
    · exact hbooks.leases i d hd
  refine ⟨hcut.push hleased _ _ (fun hcomp => by cases hcomp), Grows.trans (grows_truncate hc ?_) (grows_push _ _ _)⟩
  rw [(hbooks.entry id c hc).end_ hopen]
  omega

theorem serves_assignAt (h : Custody m written held) (hbooks : m.Books total) (w mirrorId start end_ now : Nat) :
    Serves m written held w (m.assignAt w mirrorId start end_ now) := by
  rcases assignAt_cases (m := m) w mirrorId start end_ now with heq | ⟨id, c, hc, hu, heq | ⟨hs, he, heq⟩⟩ <;>
    rw [heq]
  · exact ⟨h, .refl m⟩
  · exact serves_assign h hbooks hc (unassigned_open hu).1 (unassigned_idle hu) w mirrorId now
  · obtain ⟨hcustody, hgrows⟩ := h.truncate_push hbooks hc (unassigned_open hu).1 he
    obtain ⟨hcustody', hgrows'⟩ := serves_assign hcustody
      (hbooks.truncate_push hc (unassigned_open hu).1 hs he) (truncate_push_get hc _)
      (unassigned_open hu).1 (unassigned_idle hu) w mirrorId now
    exact ⟨hcustody', hgrows.trans hgrows'⟩

theorem serves_stealFrom (h : Custody m written held) (hbooks : m.Books total) {id : Nat} {c : Chunk}
    (hc : m.chunks[id]? = some c) (hopen : c.isCompleted = false) {minBytes : Nat} (hmin : 0 < minBytes)
    (w mirrorId : Nat) (share : Share) (now : Nat) :
    Serves m written held w (Prod.map (Option.map Prod.snd) (fun m => m)
      (m.stealFrom id w mirrorId minBytes share now)) := by
  rcases stealFrom_cases hbooks hc hopen hmin w mirrorId share now with heq | ⟨end_, hs, he, heq⟩ <;> rw [heq]
  · exact ⟨h, .refl m⟩
  · obtain ⟨hcustody, hgrows⟩ := h.truncate_push hbooks hc hopen he
    obtain ⟨hcustody', hgrows'⟩ := serves_assign hcustody (hbooks.truncate_push hc hopen hs he)
      (truncate_push_last _) rfl rfl w mirrorId now
    exact ⟨hcustody', hgrows.trans hgrows'⟩

/-! ## Takeover -/

/-- Splitting off what was written, up to where the lease's offset is. -/
theorem Custody.rest {id pos : Nat} {c : Chunk} (h : Custody m written held) (hbooks : m.Books total)
    (hc : m.chunks[id]? = some c) (hopen : c.isCompleted = false)
    (hpos : c.range.start < pos → pos ≤ (m.cells.leases c.lease).currentOffset) :
    Custody (m.rest id c pos).2 written held := by
  unfold ChunkManager.rest
  split
  · rename_i hlt
    have hwritten := h.written id c hc hopen
    have hcut : Custody { m with chunks := m.chunks.set id { c with range := ⟨pos, c.range.end_⟩ } }
        written held := by
      refine h.update hc hbooks.leases (hbooks.only hc) rfl le_rfl (fun _ _ _ => ⟨rfl, rfl⟩) (fun hr => hr)
        (fun hcomp => absurd (hopen.symm.trans hcomp) (by decide)) (fun _ => ?_)
        (fun _ => h.inForce id c hc hopen) ?_
      · exact fun x h1 h2 => hwritten x (le_trans (Nat.le_of_lt hlt) h1) h2
      · intro w k hk hkid hforce
        obtain ⟨d, hd, hflight, hl⟩ := h.owns w k hk hforce
        rw [hkid, hc] at hd
        cases hd
        exact ⟨hflight, hl⟩
    have hleased : Leased { m with chunks := m.chunks.set id { c with range := ⟨pos, c.range.end_⟩ } } := by
      intro i d hd
      rcases (getElem?_set_some hc).mp hd with ⟨rfl, rfl⟩ | ⟨_, hd⟩
      · exact hbooks.leases i c hc
      · exact hbooks.leases i d hd
    have hsplit := hcut.push hleased ⟨c.range.start, pos - 1⟩ .completed
      fun _ x h1 h2 => hwritten x h1 (by have := hpos hlt; dsimp only at h2; omega)
    exact hsplit.congr rfl rfl
  · exact h

theorem revoke_alloc {cells : Cells} {a : Nat} (ha : a < cells.next) (l : Lease) :
    (cells.revoke a).alloc l = (cells.alloc l).revoke a := by
  have hne : a ≠ cells.next := Nat.ne_of_lt ha
  simp only [Cells.revoke, Cells.alloc, Function.update_of_ne hne]
  rw [Function.update_comm hne]

/-- Revoking first and splitting off the rest then is the same the other way
round. -/
theorem rest_revoke {id pos : Nat} {c : Chunk} (hlt : c.lease < m.cells.next) :
    ({ m with cells := m.cells.revoke c.lease }).rest id c pos =
      ((m.rest id c pos).1,
        { (m.rest id c pos).2 with cells := (m.rest id c pos).2.cells.revoke c.lease }) := by
  unfold rest
  split
  · simp only [splitWritten, push, Chunk.new]
    rw [revoke_alloc hlt]
    rfl
  · rfl

/-- The rest of a chunk in flight changes hands: its lease is revoked, and a
new one is in force. -/
theorem Custody.usurp {id : Nat} {c : Chunk} (h : Custody m written held) (hbooks : m.Books total)
    (hc : m.chunks[id]? = some c) (hopen : c.isCompleted = false) (pos end_ : Nat) (hstart : c.range.start = pos) :
    let m' := (ChunkManager.relet { m with cells := m.cells.revoke c.lease } id c pos end_).2
    Custody m' written held ∧
      ∀ w k, held w = some k → (m'.cells.leases k.lease).revoked = false → k.id ≠ id := by
  intro m'
  have hnext : m'.cells.next = m.cells.next + 1 := rfl
  have hold : ∀ a < m.cells.next, m'.cells.leases a = (m.cells.revoke c.lease).leases a :=
    fun a ha => alloc_lease_old ha
  have hnew : m'.cells.leases m.cells.next = ⟨pos, end_, false⟩ := alloc_lease_new _ _
  have hother : ∀ a < m.cells.next, a ≠ c.lease → m'.cells.leases a = m.cells.leases a := fun a ha hne =>
    (hold a ha).trans (revoke_other hne)
  have hrev : (m'.cells.leases c.lease).revoked = true := by
    rw [hold _ (hbooks.leases id c hc), revoke_self]
  -- whoever held the chunk held the lease that is revoked now
  have hlost : ∀ w k, held w = some k → (m'.cells.leases k.lease).revoked = false → k.id ≠ id := by
    intro w k hk hforce heq
    have hne : k.lease ≠ c.lease := fun hl => by rw [hl, hrev] at hforce; cases hforce
    rw [hother _ (h.allocated w k hk) hne] at hforce
    obtain ⟨d, hd, _, hl⟩ := h.owns w k hk hforce
    rw [heq, hc] at hd
    cases hd
    exact hne hl.symm
  refine ⟨h.update hc hbooks.leases (hbooks.only hc) rfl (Nat.le_succ _) (fun a ha hne => ?_) (fun _ => hrev)
    (fun hcomp => absurd (hopen.symm.trans hcomp) (by decide)) (fun _ => ?_) (fun _ => ?_) ?_, hlost⟩
  · rw [hother a ha hne]
    exact ⟨rfl, rfl⟩
  · intro x h1 h2
    change x < (m'.cells.leases m.cells.next).currentOffset at h2
    rw [hnew] at h2
    dsimp only at h1 h2
    omega
  · exact congrArg Lease.revoked hnew
  · exact fun w k hk heq hforce => absurd heq (hlost w k hk hforce)

/-- A chunk whose every byte is written is completed, once nobody has its
lease in force. -/
theorem Custody.complete {id : Nat} {c : Chunk} {cells : Cells} (h : Custody m written held)
    (hbooks : m.Books total) (hc : m.chunks[id]? = some c) (hnext : m.cells.next ≤ cells.next)
    (hold : ∀ a < m.cells.next, a ≠ c.lease → cells.leases a = m.cells.leases a)
    (hrevoked : (m.cells.leases c.lease).revoked = true → (cells.leases c.lease).revoked = true)
    (hdone : WrittenTo written c.range.start (c.range.end_ + 1))
    (hfree : ∀ w k, held w = some k → k.id = id → (cells.leases k.lease).revoked = false → False) :
    Custody (ChunkManager.complete { m with cells } id c) written held := by
  refine h.update hc hbooks.leases (hbooks.only hc) rfl hnext (fun a ha hne => ?_) hrevoked (fun _ => hdone)
    (fun hopen => by simp at hopen) (fun hopen => by simp at hopen)
    (fun w k hk heq hforce => (hfree w k hk heq hforce).elim)
  show (cells.leases a).currentOffset = _ ∧ (cells.leases a).revoked = _
  rw [hold a ha hne]
  exact ⟨rfl, rfl⟩

theorem serves_takeOver (h : Custody m written held) (hbooks : m.Books total) {id : Nat} {c : Chunk}
    (hc : m.chunks[id]? = some c) (hflight : c.isInFlight = true) (w mirrorId now : Nat) :
    Serves m written held w (m.takeOver id w mirrorId now) := by
  have hopen := (inFlight_open hflight).1
  have hlt := hbooks.leases id c hc
  have hgrows := grows_revoke m c.lease
  have hwritten := h.written id c hc hopen
  rcases takeOver_cases hbooks hc hflight w mirrorId now with ⟨hpast, heq⟩ | ⟨hle, heq⟩ <;> rw [heq]
  · have hvalid := hbooks.valid hc
    refine ⟨h.complete hbooks hc le_rfl (fun _ _ hne => revoke_other hne)
      (fun _ => revoke_self _ _) (fun x h1 h2 => hwritten x h1 (by omega)) ?_,
      hgrows.trans (grows_complete hc)⟩
    intro w' k hk hkid hforce
    have hne : k.lease ≠ c.lease := fun hl => by
      rw [hl, revoke_self] at hforce
      cases hforce
    rw [revoke_other hne] at hforce
    obtain ⟨d, hd, _, hl⟩ := h.owns w' k hk hforce
    rw [hkid, hc] at hd
    cases hd
    exact hne hl.symm
  · generalize hpos : max (m.cells.leases c.lease).currentOffset c.range.start = pos at hle ⊢
    obtain ⟨hrest, hget, hbooks'⟩ := rest_spec hbooks hc hopen (hpos ▸ le_max_right _ _) hle
    have hcustody : Custody (m.rest id c pos).2 written held := h.rest hbooks hc hopen (by omega)
    have hgrows : m.Grows (m.rest id c pos).2 := grows_rest hc
    rw [rest_revoke hlt]
    generalize m.rest id c pos = r at hrest hget hbooks' hcustody hgrows ⊢
    obtain ⟨c', m'⟩ := r
    dsimp only at hrest hget hbooks' hcustody hgrows ⊢
    rw [← hrest] at hget
    have hlease : c'.lease = c.lease := by rw [hrest]
    have hopen' : c'.isCompleted = false := by rw [hrest]; exact hopen
    rw [← hlease]
    obtain ⟨husurp, hlost⟩ := hcustody.usurp hbooks' hget hopen' pos c.range.end_ (by rw [hrest])
    have hrevoked := hbooks'.revoke c'.lease
    have hgrows' := grows_revoke m' c'.lease
    generalize hm : ({ m' with cells := m'.cells.revoke c'.lease } : ChunkManager) = revoked at *
    have hget' : revoked.chunks[id]? = some c' := by rw [← hm]; exact hget
    have hnext : revoked.cells.next = m'.cells.next := by rw [← hm]; rfl
    have hbooks'' : Books (revoked.relet id c' pos c.range.end_).2 total := by
      have := @Books.relet revoked total id pos c' hrevoked hget'
      rwa [show c'.range.end_ = c.range.end_ by rw [hrest]] at this
    have hnew := @relet_get revoked id pos c.range.end_ c' hget'
    refine ⟨husurp.assign hbooks''.leases (hbooks''.only hnew) hnew (hbooks''.entry id _ hnew).id hopen'
      (fun w' k hk heq => ?_) hlost w mirrorId now, hgrows.trans (hgrows'.trans ((grows_relet hget').trans
        (grows_assign hnew w mirrorId now)))⟩
    have hlt := hcustody.allocated w' k hk
    rw [heq] at hlt
    exact Nat.lt_irrefl _ (hnext ▸ hlt)

/-- A takeover that hands out a chunk leaves its old lease revoked and the chunk
in flight. -/
theorem takeOver_hands (hbooks : m.Books total) {id : Nat} {c : Chunk} (hc : m.chunks[id]? = some c)
    (hflight : c.isInFlight = true) {w mirrorId now : Nat} {chunk : Chunk}
    (hgiven : (m.takeOver id w mirrorId now).1 = some chunk) :
    ((m.takeOver id w mirrorId now).2.cells.leases c.lease).revoked = true ∧
      (m.takeOver id w mirrorId now).2.chunks[id]? = some chunk ∧ chunk.isInFlight = true := by
  have hlt := hbooks.leases id c hc
  rcases takeOver_cases hbooks hc hflight w mirrorId now with ⟨_, heq⟩ | ⟨hle, heq⟩ <;> rw [heq] at hgiven ⊢
  · cases hgiven
  · obtain ⟨hrest, hget, _⟩ := rest_spec (hbooks.revoke c.lease) hc (inFlight_open hflight).1
      (le_max_right _ _) hle
    rw [← hrest] at hget
    have hrevoked := revoke_self m.cells c.lease
    have hgrows := @grows_rest { m with cells := m.cells.revoke c.lease } id
      (max (m.cells.leases c.lease).currentOffset c.range.start) c hc
    generalize ChunkManager.rest _ id c _ = r at hget hgrows hgiven ⊢
    have hnew := @relet_get r.2 id (max (m.cells.leases c.lease).currentOffset c.range.start)
      c.range.end_ r.1 hget
    have hgrows' := hgrows.trans ((grows_relet hget).trans (grows_assign hnew w mirrorId now))
    cases hgiven
    exact ⟨hgrows'.revoked _ hlt hrevoked, (getElem?_set_some hnew).mpr (.inl ⟨rfl, rfl⟩), rfl⟩

/-! ## Settling -/

/-- What holds of the books, the workers and the cells once worker `w`
settled its chunk. -/
structure Settled (m : ChunkManager) (total : Nat) (written : Nat → Bool) (held : Nat → Option Chunk)
    (w : Nat) (m' : ChunkManager) : Prop where
  books : m'.Books total
  custody : Custody m' written (Function.update held w none)
  grows : m.Grows m'

variable {w : Nat} {k : Chunk}

theorem Settled.same (h : Custody m written held) (hbooks : m.Books total) :
    Settled m total written held w m := ⟨hbooks, h.release w, .refl m⟩

theorem Settled.abort {m' : ChunkManager} (h : Settled m total written held w m') (chunkId : Nat)
    (reason : String) : Settled m total written held w (m'.abort chunkId reason) := by
  have hsame : (m'.abort chunkId reason).chunks = m'.chunks ∧ (m'.abort chunkId reason).cells = m'.cells := by
    unfold ChunkManager.abort
    split <;> exact ⟨rfl, rfl⟩
  exact ⟨h.books.abort chunkId reason, h.custody.congr hsame.1 hsame.2, h.grows.congr hsame.1 hsame.2⟩

/-- The chunk of a worker whose lease is in force, as the books have it. -/
theorem Custody.own (h : Custody m written held) (hk : held w = some k)
    (hforce : (m.cells.leases k.lease).revoked = false) :
    ∃ c, m.chunks[k.id]? = some c ∧ c.isCompleted = false ∧ c.isFailed = false ∧ c.lease = k.lease := by
  obtain ⟨c, hc, hflight, hl⟩ := h.owns w k hk hforce
  exact ⟨c, hc, (inFlight_open hflight).1, (inFlight_open hflight).2, hl⟩

/-- Once its worker is gone, nobody holds the chunk. -/
theorem Custody.left (h : Custody m written held) (hk : held w = some k)
    (hforce : (m.cells.leases k.lease).revoked = false) {w' : Nat} {k' : Chunk}
    (hk' : Function.update held w none w' = some k') (hid : k'.id = k.id)
    (hforce' : (m.cells.leases k'.lease).revoked = false) : False := by
  rw [Function.update_apply] at hk'
  split at hk'
  · cases hk'
  · rename_i hne
    exact hne (h.sole hk hk' hforce hforce' hid)

/-- A worker whose offset passed its chunk's end may complete the chunk. -/
theorem Settled.complete {c : Chunk} (h : Custody m written held) (hbooks : m.Books total)
    (hk : held w = some k) (hforce : (m.cells.leases k.lease).revoked = false)
    (hc : m.chunks[k.id]? = some c) (hopen : c.isCompleted = false) (hnot : c.isFailed = false)
    (hpast : c.range.end_ < (m.cells.leases c.lease).currentOffset) :
    Settled m total written held w (m.complete k.id c) := by
  have hwritten := h.written k.id c hc hopen
  exact ⟨hbooks.complete hc hopen hnot, (h.release w).complete hbooks hc le_rfl (fun _ _ _ => rfl)
    (fun hr => hr) (fun x h1 h2 => hwritten x h1 (by omega))
    (fun w' k' hk' hid hforce' => h.left hk hforce hk' hid hforce'), grows_complete hc⟩

theorem Settled.markCompleted (h : Custody m written held) (hbooks : m.Books total)
    (hk : held w = some k) (hforce : (m.cells.leases k.lease).revoked = false)
    (hpast : (m.cells.leases k.lease).endOffset < (m.cells.leases k.lease).currentOffset) :
    ∃ m', m.markCompleted k.id = .ok m' ∧ Settled m total written held w m' := by
  obtain ⟨c, hc, hopen, hnot, hl⟩ := h.own hk hforce
  have hend := (hbooks.entry k.id c hc).end_ hopen
  refine ⟨m.complete k.id c, by simp [ChunkManager.markCompleted, hc, hopen],
    .complete h hbooks hk hforce hc hopen hnot ?_⟩
  rw [← hend, hl]
  exact hpast

theorem Settled.markFailed (h : Custody m written held) (hbooks : m.Books total)
    (hk : held w = some k) (hforce : (m.cells.leases k.lease).revoked = false) (reason : String)
    (minDelay : Nat) (counts : Bool) (now : Nat) (backoffDelay : Nat → Nat) :
    ∃ m', m.markFailed k.id reason minDelay counts now backoffDelay = .ok m' ∧
      Settled m total written held w m' := by
  obtain ⟨c, hc, hopen, hnot, hl⟩ := h.own hk hforce
  rcases markFailed_cases hbooks hc reason minDelay counts now backoffDelay with
    ⟨hdone, _⟩ | ⟨_, hpast, heq⟩ | ⟨pos, made, _, hs, he, hpos, heq⟩
  · rw [hopen] at hdone
    cases hdone
  · exact ⟨_, heq, .complete h hbooks hk hforce hc hopen hnot hpast⟩
  · refine ⟨_, heq, hbooks.requeueRest hc hopen hnot hs he, ?_, ?_⟩
    · obtain ⟨hrest, hget, hbooks'⟩ := rest_spec hbooks hc hopen hs he
      have hcustody := h.rest hbooks hc hopen hpos
      have hgrows : m.Grows (m.rest k.id c pos).2 := grows_rest hc
      have hlost : ∀ w' k', Function.update held w none w' = some k' → k'.id = k.id →
          ((m.rest k.id c pos).2.cells.leases k'.lease).revoked = false → False := by
        intro w' k' hk' hid hforce'
        have hheld : held w' = some k' := by
          rw [Function.update_apply] at hk'
          split at hk'
          · cases hk'
          · exact hk'
        refine h.left hk hforce hk' hid ?_
        by_contra hrev
        rw [hgrows.revoked _ (h.allocated w' k' hheld) (Bool.eq_true_of_not_eq_false hrev)] at hforce'
        cases hforce'
      obtain ⟨retries, notBefore, hretry⟩ :=
        retryAfter_eq (m.rest k.id c pos).1 made counts minDelay now backoffDelay
      rw [hretry]
      generalize m.rest k.id c pos = r at hrest hget hbooks' hcustody hlost ⊢
      obtain ⟨c', m'⟩ := r
      dsimp only at hrest hget hbooks' hcustody hlost ⊢
      rw [← hrest] at hget
      have hopen' : c'.isCompleted = false := by rw [hrest]; exact hopen
      refine (hcustody.release w).update hget hbooks'.leases (hbooks'.only hget) rfl le_rfl
        (fun _ _ _ => ⟨rfl, rfl⟩) (fun hr => hr) (fun hcomp => by simp [Chunk.isCompleted] at hcomp)
        (fun _ => hcustody.written k.id c' hget hopen') (fun _ => hcustody.inForce k.id c' hget hopen')
        (fun w' k' hk' hid hforce' => (hlost w' k' hk' hid hforce').elim)
    · have hgrows : m.Grows (m.rest k.id c pos).2 := grows_rest hc
      obtain ⟨hrest, hget, _⟩ := rest_spec hbooks hc hopen hs he
      obtain ⟨retries, notBefore, hretry⟩ :=
        retryAfter_eq (m.rest k.id c pos).1 made counts minDelay now backoffDelay
      rw [hretry]
      exact hgrows.trans (.ofSet hget rfl (.inl (by rw [hrest])) le_rfl fun _ _ => rfl)

end ChunkManager

end Hyperfetch
