import Hyperfetch.Chunk.Runs
import Hyperfetch.RangeAlgebra

/-!
# What a steal leaves (`steal_work`)

The books need the operations to come in an orderly way; a steal needs less.
In every state any order of them reaches, each chunk's shared end is its
range's end and no two chunks share a lease, and from that alone both halves
of a steal are workable. The victim's worker may move on between the two
looks of a steal: what counts is what the second look finds.
-/

namespace Hyperfetch

open Weft

namespace ChunkManager

/-- Chunk `c` is at index `i`, its range lies in the file, and its lease ends
where its range does. -/
structure Lined (m : ChunkManager) (total i : Nat) (c : Chunk) : Prop where
  id : c.id = i
  ordered : c.range.start ≤ c.range.end_
  inFile : c.range.end_ < total
  end_ : (m.cells.leases c.lease).endOffset = c.range.end_
  leased : c.lease < m.cells.next

/-- What holds of the chunks whatever order the operations come in. -/
structure Aligned (m : ChunkManager) (total : Nat) : Prop where
  bounded : total ≤ u64Max
  entry : ∀ i c, m.chunks[i]? = some c → m.Lined total i c
  distinct : ∀ (i j : Nat) (c d : Chunk), m.chunks[i]? = some c → m.chunks[j]? = some d →
    c.lease = d.lease → i = j

/-- `get_next_work` hands out a chunk of the list, or only moves the cursor. -/
theorem getNextWork_assigns (m : ChunkManager) (workerId mirrorId now : Nat) :
    (∃ id c queue fresh, m.chunks[id]? = some c ∧ m.fatal.isSome = false ∧
        m.getNextWork workerId mirrorId now =
          handing ({ m with retryQueue := queue, nextFresh := fresh }.assign id c workerId mirrorId now)) ∨
      ∃ fresh, m.getNextWork workerId mirrorId now = (none, { m with nextFresh := fresh }) := by
  unfold getNextWork
  split
  · exact .inr ⟨m.nextFresh, rfl⟩
  · rename_i hgo
    have hgo : m.fatal.isSome = false := Bool.eq_false_iff.mpr hgo
    cases hq : m.retryQueue.find? (m.ready now) with
    | some id =>
      cases hc : m.chunks[id]? with
      | none => exact .inr ⟨m.nextFresh, by simp only [hc]⟩
      | some c => exact .inl ⟨id, c, m.retryQueue.erase id, m.nextFresh, hc, hgo, by simp only [hc]; rfl⟩
    | none =>
      cases hk : (m.chunks.drop m.nextFresh).findIdx? (·.status == .unassigned) with
      | none => exact .inr ⟨_, rfl⟩
      | some k =>
        cases hc : m.chunks[m.nextFresh + k]? with
        | none => exact .inr ⟨m.nextFresh, by simp only [hc]⟩
        | some c => exact .inl ⟨_, c, m.retryQueue, m.nextFresh + k + 1, hc, hgo, by simp only [hc]; rfl⟩

namespace Aligned

variable {m m' : ChunkManager} {total : Nat}

/-- The queue, the cursor, the counter and the verdict do not matter. -/
theorem congr (h : m.Aligned total) (hchunks : m'.chunks = m.chunks) (hcells : m'.cells = m.cells) :
    m'.Aligned total := by
  refine ⟨h.bounded, fun i c hc => ?_, fun i j c d hc hd => ?_⟩
  · rw [hchunks] at hc
    have e := h.entry i c hc
    exact ⟨e.id, e.ordered, e.inFile, by rw [hcells]; exact e.end_, by rw [hcells]; exact e.leased⟩
  · rw [hchunks] at hc hd
    exact h.distinct i j c d hc hd

/-- A lease in use keeps its end. -/
theorem withCells (h : m.Aligned total) {cells : Cells}
    (hends : ∀ a < m.cells.next, (cells.leases a).endOffset = (m.cells.leases a).endOffset)
    (hnext : m.cells.next ≤ cells.next) : Aligned { m with cells } total where
  bounded := h.bounded
  entry i c hc :=
    have e := h.entry i c hc
    ⟨e.id, e.ordered, e.inFile, (hends c.lease e.leased).trans e.end_, Nat.lt_of_lt_of_le e.leased hnext⟩
  distinct := h.distinct

/-- A chunk is replaced by one with its lease or a new one, which may move
that lease's end but no other. -/
theorem replace (h : m.Aligned total) {id : Nat} {c : Chunk} (hc : m.chunks[id]? = some c) (c' : Chunk)
    (hchunks : m'.chunks = m.chunks.set id c') (hentry : m'.Lined total id c')
    (hlease : c'.lease = c.lease ∨ m.cells.next ≤ c'.lease)
    (hends : ∀ a < m.cells.next, a ≠ c.lease →
      (m'.cells.leases a).endOffset = (m.cells.leases a).endOffset)
    (hnext : m.cells.next ≤ m'.cells.next) : m'.Aligned total where
  bounded := h.bounded
  entry i d hd := by
    rw [hchunks, getElem?_set_some hc] at hd
    rcases hd with ⟨rfl, rfl⟩ | ⟨hne, hd⟩
    · exact hentry
    · have e := h.entry i d hd
      have hother : d.lease ≠ c.lease := fun hsame => hne (h.distinct i id d c hd hc hsame)
      exact ⟨e.id, e.ordered, e.inFile, (hends d.lease e.leased hother).trans e.end_,
        Nat.lt_of_lt_of_le e.leased hnext⟩
  distinct i j d e hd he hde := by
    rw [hchunks, getElem?_set_some hc] at hd he
    rcases hd with ⟨rfl, rfl⟩ | ⟨hi, hd⟩ <;> rcases he with ⟨rfl, rfl⟩ | ⟨hj, he⟩
    · rfl
    · rcases hlease with hl | hl
      · exact h.distinct i j c e hc he (hl ▸ hde)
      · have := (h.entry j e he).leased
        omega
    · rcases hlease with hl | hl
      · exact h.distinct i j d c hd hc (hl ▸ hde)
      · have := (h.entry i d hd).leased
        omega
    · exact h.distinct i j d e hd he hde

/-- A chunk with a new lease is added. -/
theorem append (h : m.Aligned total) (d : Chunk) (hchunks : m'.chunks = m.chunks ++ [d])
    (hentry : m'.Lined total m.chunks.length d) (hnew : m.cells.next ≤ d.lease)
    (hends : ∀ a < m.cells.next, (m'.cells.leases a).endOffset = (m.cells.leases a).endOffset)
    (hnext : m.cells.next ≤ m'.cells.next) : m'.Aligned total where
  bounded := h.bounded
  entry i c hc := by
    rw [hchunks, getElem?_concat_some] at hc
    rcases hc with hc | ⟨rfl, rfl⟩
    · have e := h.entry i c hc
      exact ⟨e.id, e.ordered, e.inFile, (hends c.lease e.leased).trans e.end_,
        Nat.lt_of_lt_of_le e.leased hnext⟩
    · exact hentry
  distinct i j c e hc he hce := by
    rw [hchunks, getElem?_concat_some] at hc he
    rcases hc with hc | ⟨rfl, rfl⟩ <;> rcases he with he | ⟨rfl, rfl⟩
    · exact h.distinct i j c e hc he hce
    · have := (h.entry i c hc).leased
      omega
    · have := (h.entry j e he).leased
      omega
    · rfl

/-! ## Primitives -/

theorem set_status (h : m.Aligned total) {id : Nat} {c : Chunk} (hc : m.chunks[id]? = some c) (c' : Chunk)
    (hid : c'.id = c.id) (hrange : c'.range = c.range) (hlease : c'.lease = c.lease)
    (hchunks : m'.chunks = m.chunks.set id c') (hcells : m'.cells = m.cells) : m'.Aligned total := by
  have e := h.entry id c hc
  refine h.replace hc c' hchunks ⟨hid.trans e.id, ?_, ?_, ?_, ?_⟩ (.inl hlease) (fun a _ _ => by rw [hcells])
    (by rw [hcells])
  · rw [hrange]
    exact e.ordered
  · rw [hrange]
    exact e.inFile
  · rw [hcells, hlease, hrange]
    exact e.end_
  · rw [hcells, hlease]
    exact e.leased

theorem assign (h : m.Aligned total) {id : Nat} {c : Chunk} (hc : m.chunks[id]? = some c)
    (workerId mirrorId now : Nat) : Aligned (m.assign id c workerId mirrorId now).2 total := by
  have e := h.entry id c hc
  refine h.replace hc (m.assign id c workerId mirrorId now).1 rfl ⟨e.id, e.ordered, e.inFile, ?_, ?_⟩ (.inl rfl)
    (fun a ha _ => ?_) (Nat.le_succ _)
  · show ((m.cells.alloc ⟨0, 0, true⟩).leases c.lease).endOffset = c.range.end_
    rw [alloc_lease_old e.leased]
    exact e.end_
  · exact Nat.lt_succ_of_lt e.leased
  · show ((m.cells.alloc ⟨0, 0, true⟩).leases a).endOffset = _
    rw [alloc_lease_old ha]

theorem push (h : m.Aligned total) {range : ByteRange} (hordered : range.start ≤ range.end_)
    (hin : range.end_ < total) (status : ChunkStatus) : Aligned (m.push range status) total := by
  refine h.append _ rfl ⟨rfl, hordered, hin, ?_, Nat.lt_succ_self _⟩ le_rfl (fun a ha => ?_) (Nat.le_succ _)
  · show ((m.cells.alloc (Chunk.newLease range)).leases m.cells.next).endOffset = range.end_
    rw [alloc_lease_new]
    rfl
  · show ((m.cells.alloc (Chunk.newLease range)).leases a).endOffset = _
    rw [alloc_lease_old ha]

theorem truncate (h : m.Aligned total) {id end_ : Nat} {c : Chunk} (hc : m.chunks[id]? = some c)
    (hstart : c.range.start ≤ end_) (hend : end_ ≤ c.range.end_) : Aligned (m.truncate id c end_) total := by
  have e := h.entry id c hc
  have hin := e.inFile
  refine h.replace hc { c with range := ⟨c.range.start, end_⟩ } rfl
    ⟨e.id, hstart, Nat.lt_of_le_of_lt hend hin, ?_, e.leased⟩ (.inl rfl) (fun a _ hne => ?_) le_rfl
  · show ((m.cells.storeEnd c.lease end_).leases c.lease).endOffset = end_
    rw [storeEnd_lease, if_pos rfl]
  · show ((m.cells.storeEnd c.lease end_).leases a).endOffset = _
    rw [storeEnd_lease, if_neg hne]

theorem rest (h : m.Aligned total) {id pos : Nat} {c : Chunk} (hc : m.chunks[id]? = some c)
    (hstart : c.range.start ≤ pos) (hend : pos ≤ c.range.end_) :
    (m.rest id c pos).1 = { c with range := ⟨pos, c.range.end_⟩ } ∧
      (m.rest id c pos).2.chunks[id]? = some (m.rest id c pos).1 ∧ Aligned (m.rest id c pos).2 total := by
  have e := h.entry id c hc
  unfold ChunkManager.rest
  split
  · rename_i hlt
    have hset : Aligned { m with chunks := m.chunks.set id { c with range := ⟨pos, c.range.end_⟩ } } total :=
      h.replace hc _ rfl ⟨e.id, hend, e.inFile, e.end_, e.leased⟩ (.inl rfl) (fun _ _ _ => rfl) le_rfl
    have hin := e.inFile
    have hpush := @push _ _ hset ⟨c.range.start, pos - 1⟩ (show c.range.start ≤ pos - 1 by omega)
      (show pos - 1 < total by omega) .completed
    refine ⟨rfl, ?_, hpush.congr rfl rfl⟩
    simp only [splitWritten, ChunkManager.push]
    rw [getElem?_concat_some, getElem?_set_some hc]
    exact .inl (.inl ⟨rfl, rfl⟩)
  · have hsame : pos = c.range.start := by omega
    subst hsame
    exact ⟨rfl, hc, h⟩

theorem relet (h : m.Aligned total) {id pos end_ : Nat} {c : Chunk} (hc : m.chunks[id]? = some c)
    (hend : end_ = c.range.end_) : Aligned (m.relet id c pos end_).2 total := by
  subst hend
  have e := h.entry id c hc
  refine h.replace hc { c with lease := m.cells.next } rfl ⟨e.id, e.ordered, e.inFile, ?_, Nat.lt_succ_self _⟩
    (.inr le_rfl) (fun a ha _ => ?_) (Nat.le_succ _)
  · show ((m.cells.alloc ⟨pos, c.range.end_, false⟩).leases m.cells.next).endOffset = c.range.end_
    rw [alloc_lease_new]
  · show ((m.cells.alloc ⟨pos, c.range.end_, false⟩).leases a).endOffset = _
    rw [alloc_lease_old ha]

/-! ## Operations -/

theorem getNextWork (h : m.Aligned total) (workerId mirrorId now : Nat) :
    Aligned (m.getNextWork workerId mirrorId now).2 total := by
  rcases getNextWork_assigns m workerId mirrorId now with ⟨id, c, queue, fresh, hc, _, heq⟩ | ⟨fresh, heq⟩
  · rw [heq]
    have hsame : Aligned { m with retryQueue := queue, nextFresh := fresh } total := h.congr rfl rfl
    exact hsame.assign hc workerId mirrorId now
  · rw [heq]
    exact h.congr rfl rfl

theorem assignAt (h : m.Aligned total) (workerId mirrorId start end_ now : Nat) :
    Aligned (m.assignAt workerId mirrorId start end_ now).2 total := by
  rcases assignAt_cases (m := m) workerId mirrorId start end_ now with heq | ⟨id, c, hc, _, heq | ⟨hs, he, heq⟩⟩
  · rw [heq]
    exact h
  · rw [heq]
    exact h.assign hc _ _ _
  · rw [heq]
    have hcut := @push _ _ (h.truncate hc hs (Nat.le_of_lt he)) ⟨end_ + 1, c.range.end_⟩ he
      (h.entry id c hc).inFile .unassigned
    exact hcut.assign (truncate_push_get hc _) workerId mirrorId now

theorem complete (h : m.Aligned total) {id : Nat} {c : Chunk} (hc : m.chunks[id]? = some c) :
    Aligned (m.complete id c) total :=
  h.set_status hc { c with status := .completed } rfl rfl rfl rfl rfl

theorem takeOver (h : m.Aligned total) (id thiefWorkerId thiefMirrorId now : Nat) :
    Aligned (m.takeOver id thiefWorkerId thiefMirrorId now).2 total := by
  unfold ChunkManager.takeOver
  split
  · exact h
  · rename_i c hc
    have hrevoked : Aligned { m with cells := m.cells.revoke c.lease } total :=
      h.withCells (fun _ _ => revoke_endOffset _ _ _) le_rfl
    have hend := (hrevoked.entry id c hc).end_
    dsimp only at hend ⊢
    rw [hend]
    split
    · exact hrevoked.complete hc
    · rename_i hleft
      obtain ⟨hcut, hget, hrest⟩ := hrevoked.rest hc (le_max_right _ _) (Nat.not_lt.mp hleft)
      exact (hrest.relet hget (by rw [hcut])).assign (relet_get hget) thiefWorkerId thiefMirrorId now

theorem requeue (h : m.Aligned total) {id : Nat} {c : Chunk} (hc : m.chunks[id]? = some c) (c' : Chunk)
    (hid : c'.id = c.id) (hrange : c'.range = c.range) (hlease : c'.lease = c.lease) (reason : String) :
    Aligned (m.requeue id c' reason) total :=
  h.set_status hc { c' with status := .failed reason c'.retries } hid hrange hlease rfl rfl

theorem markCompleted (h : m.Aligned total) (chunkId : Nat) :
    Aligned (m.orSame (m.markCompleted chunkId)) total := by
  rcases markCompleted_cases (m := m) chunkId with heq | ⟨c, hc, ⟨_, heq⟩ | ⟨_, heq⟩⟩
  · rw [heq]
    exact h
  · rw [heq]
    exact h
  · rw [heq]
    exact h.complete hc

theorem markFailed (h : m.Aligned total) (chunkId : Nat) (reason : String) (minDelay : Nat) (counts : Bool)
    (now : Nat) (backoffDelay : Nat → Nat) :
    Aligned (m.orSame (m.markFailed chunkId reason minDelay counts now backoffDelay)) total := by
  unfold ChunkManager.markFailed
  split
  · exact h
  · rename_i c hc
    split
    · exact h
    · have e := h.entry chunkId c hc
      have hordered := e.ordered
      have hin := e.inFile
      have hbound := h.bounded
      generalize hpos : min (max (m.cells.leases c.lease).currentOffset c.range.start)
        (saturatingAdd c.range.end_ 1) = pos
      unfold saturatingAdd at hpos
      dsimp only
      split
      · exact h.markCompleted chunkId
      · rename_i hleft
        obtain ⟨_, hget, hrest⟩ := @rest m total h chunkId pos c hc (by omega) (by omega)
        obtain ⟨retries, notBefore, hretry⟩ := retryAfter_eq (m.rest chunkId c pos).1
          (decide (pos > c.range.start)) counts minDelay now backoffDelay
        rw [hretry]
        exact hrest.requeue hget { (m.rest chunkId c pos).1 with retries, notBefore } rfl rfl rfl reason

end Aligned

/-! ## Steals -/

variable {m : ChunkManager} {total : Nat}

/-- The first byte of the chunk its worker has not received. -/
def missing (m : ChunkManager) (c : Chunk) : Nat :=
  max (max (m.cells.leases c.lease).currentOffset c.range.start) (m.cells.attempts c.attempt).received

/-- Chunk `c`, at index `victim` of `m`, is split at `split`: its worker is
left a byte it has not received, and the thief's chunk is long enough. -/
structure Workable (m m' : ChunkManager) (minBytes victim : Nat) (c stolen : Chunk) (split : Nat) : Prop where
  keeps : c.range.start ≤ m.missing c ∧ m.missing c < split
  least : minBytes ≤ c.range.end_ + 1 - split
  nonempty : split ≤ c.range.end_
  kept : m'.chunks[victim]? = some { c with range := ⟨c.range.start, split - 1⟩ }
  keptEnd : (m'.cells.leases c.lease).endOffset = split - 1
  handed : m'.chunks[m.chunks.length]? = some stolen
  range : stolen.range = ⟨split, c.range.end_⟩
  handedLease : m'.cells.leases stolen.lease = Chunk.newLease ⟨split, c.range.end_⟩
  /-- The two ranges hold what the victim's held, each byte once. -/
  tile : ∀ b, coverage b [⟨c.range.start, split - 1⟩, stolen.range] = coverage b [c.range]
  others : ∀ i < m.chunks.length, i ≠ victim → m'.chunks[i]? = m.chunks[i]?

/-- What a steal may return and leave behind. -/
def Stolen (m : ChunkManager) (minBytes victim : Nat) : Option (Nat × Chunk) × ChunkManager → Prop
  | (none, m') => m' = m
  | (some (id, stolen), m') =>
    id = victim ∧ ∃ c split, m.chunks[victim]? = some c ∧ m.Workable m' minBytes victim c stolen split

/-- `u64` addition, which fails when it would pass the top. -/
def addU64 (a b : Nat) : Option Nat := if a + b ≤ u64Max then some (a + b) else none

theorem addU64_eq {a b : Nat} (h : a + b ≤ u64Max) : addU64 a b = some (a + b) := if_pos h

/-- `stealFrom` with its plain additions and subtractions checked. -/
def stealFromU64 (m : ChunkManager) (victimId thiefWorkerId thiefMirrorId minBytes : Nat) (share : Share)
    (now : Nat) : Option (Option (Nat × Chunk) × ChunkManager) :=
  match m.chunks[victimId]? with
  | none => some (none, m)
  | some victim =>
    let curEnd := (m.cells.leases victim.lease).endOffset
    let remaining := victim.unreceived m.cells
    if remaining = 0 then some (none, m)
    else
      match share.bytes remaining with
      | none => some (none, m)
      | some keep =>
        if max keep 1 > remaining ∨ remaining - max keep 1 < minBytes then some (none, m)
        else do
          let past ← addU64 curEnd 1
          let splitOffset ← subU64 past (remaining - max keep 1)
          let last ← subU64 splitOffset 1
          let m := m.truncate victimId victim last
          let stolenId := m.chunks.length
          match ByteRange.new splitOffset curEnd with
          | .error _ => some (none, m)
          | .ok range =>
            let stolen := Chunk.new stolenId range m.cells.next
            let (handed, m) := (m.push range .unassigned).assign stolenId stolen thiefWorkerId thiefMirrorId now
            some (some (victimId, handed), m)

/-- Where a steal splits: as many bytes past the first one missing as the
victim is left, and at least one. -/
theorem Aligned.split_bounds (h : m.Aligned total) {victim : Nat} {c : Chunk} (hc : m.chunks[victim]? = some c)
    {kept : Nat} (hkept : 0 < kept) (hlt : kept < c.unreceived m.cells) :
    (m.cells.leases c.lease).endOffset = c.range.end_ ∧ c.range.end_ + 1 ≤ u64Max ∧
      c.range.end_ + 1 - (c.unreceived m.cells - kept) = m.missing c + kept ∧
      m.missing c + kept ≤ c.range.end_ ∧
      c.range.end_ + 1 - (m.missing c + kept) = c.unreceived m.cells - kept := by
  have e := h.entry victim c hc
  have hend := e.end_
  have hin := e.inFile
  have hbound := h.bounded
  have hun : c.unreceived m.cells = c.range.end_ + 1 - m.missing c := by
    have hsat : saturatingAdd c.range.end_ 1 = c.range.end_ + 1 :=
      Nat.min_eq_left (Nat.le_trans (Nat.succ_le_of_lt hin) hbound)
    show saturatingAdd (m.cells.leases c.lease).endOffset 1 - m.missing c = _
    rw [hend, hsat]
  refine ⟨hend, ?_, ?_, ?_, ?_⟩ <;> omega

/-- The victim's chunk cut short at `split`, and the rest handed out. -/
def cutAt (m : ChunkManager) (victim : Nat) (c : Chunk) (split thiefWorkerId thiefMirrorId now : Nat) :
    Chunk × ChunkManager :=
  let cut := m.truncate victim c (split - 1)
  (cut.push ⟨split, c.range.end_⟩ .unassigned).assign cut.chunks.length
    (Chunk.new cut.chunks.length ⟨split, c.range.end_⟩ cut.cells.next) thiefWorkerId thiefMirrorId now

/-- Both halves of that cut are workable. -/
theorem Aligned.workable (h : m.Aligned total) {victim : Nat} {c : Chunk} (hc : m.chunks[victim]? = some c)
    {split minBytes : Nat} (hstart : c.range.start ≤ m.missing c) (hkeeps : m.missing c < split)
    (hin : split ≤ c.range.end_) (hleast : minBytes ≤ c.range.end_ + 1 - split)
    (thiefWorkerId thiefMirrorId now : Nat) :
    m.Workable (m.cutAt victim c split thiefWorkerId thiefMirrorId now).2 minBytes victim c
      (m.cutAt victim c split thiefWorkerId thiefMirrorId now).1 split := by
  let cut := m.truncate victim c (split - 1)
  let r := m.cutAt victim c split thiefWorkerId thiefMirrorId now
  have hlt := lt_length hc
  have hlen : cut.chunks.length = m.chunks.length := List.length_set
  have hlease := (h.entry victim c hc).leased
  have hget : ∀ i < m.chunks.length, r.2.chunks[i]? = cut.chunks[i]? := by
    intro i hi
    show ((cut.chunks ++ [_]).set cut.chunks.length _)[i]? = _
    rw [List.getElem?_set_ne (by omega), List.getElem?_append_left (by omega)]
  have hold : ∀ a < m.cells.next, r.2.cells.leases a = cut.cells.leases a := by
    intro a ha
    have ha' : a < cut.cells.next := ha
    show ((cut.cells.alloc _).alloc _).leases a = _
    rw [alloc_lease_old (Nat.lt_succ_of_lt ha'), alloc_lease_old ha']
  refine ⟨⟨hstart, hkeeps⟩, hleast, hin, ?_, ?_, ?_, rfl, ?_, fun b => ?_, fun i hi hne => ?_⟩
  · rw [hget victim hlt]
    exact (getElem?_set_some hc).mpr (.inl ⟨rfl, rfl⟩)
  · rw [hold c.lease hlease]
    show ((m.cells.storeEnd c.lease (split - 1)).leases c.lease).endOffset = split - 1
    rw [storeEnd_lease, if_pos rfl]
  · show ((cut.chunks ++ [_]).set cut.chunks.length _)[m.chunks.length]? = _
    rw [← hlen, List.getElem?_set_self (by simp)]
    rfl
  · show ((cut.cells.alloc (Chunk.newLease ⟨split, c.range.end_⟩)).alloc _).leases cut.cells.next = _
    rw [alloc_lease_old (Nat.lt_succ_self _), alloc_lease_new]
  · show coverage b [⟨c.range.start, split - 1⟩, ⟨split, c.range.end_⟩] = _
    simp only [coverage_cons, coverage_nil]
    split_ifs <;> omega
  · rw [hget i hi]
    exact List.getElem?_set_ne (Ne.symm hne)

theorem Aligned.stealFromU64_eq (h : m.Aligned total) (victim thiefWorkerId thiefMirrorId : Nat) {minBytes : Nat}
    (hmin : 0 < minBytes) (share : Share) (now : Nat) :
    m.stealFromU64 victim thiefWorkerId thiefMirrorId minBytes share now =
      some (m.stealFrom victim thiefWorkerId thiefMirrorId minBytes share now) := by
  unfold stealFromU64 ChunkManager.stealFrom
  cases hc : m.chunks[victim]? with
  | none => rfl
  | some c =>
    dsimp only
    split
    · rfl
    · cases share.bytes (c.unreceived m.cells) with
      | none => rfl
      | some keep =>
        dsimp only
        split
        · rfl
        · rename_i hgo
          obtain ⟨hend, htop, hsplit, hin, _⟩ := @Aligned.split_bounds m total h victim c hc (max keep 1) (by omega) (by omega)
          rw [hend, addU64_eq htop, Option.bind_eq_bind, Option.bind_some, subU64_eq (by omega),
            Option.bind_some, hsplit, subU64_eq (by omega), Option.bind_some, ByteRange.new_eq_ok hin]

/-- A steal changes nothing, or cuts the victim's chunk short after every byte
its worker has received and one more. -/
theorem Aligned.steals (h : m.Aligned total) (victim thiefWorkerId thiefMirrorId : Nat) {minBytes : Nat}
    (hmin : 0 < minBytes) (share : Share) (now : Nat) :
    m.stealFrom victim thiefWorkerId thiefMirrorId minBytes share now = (none, m) ∨
      ∃ c split, m.chunks[victim]? = some c ∧ c.range.start ≤ m.missing c ∧ m.missing c < split ∧
        split ≤ c.range.end_ ∧ minBytes ≤ c.range.end_ + 1 - split ∧
        m.stealFrom victim thiefWorkerId thiefMirrorId minBytes share now =
          (some (victim, (m.cutAt victim c split thiefWorkerId thiefMirrorId now).1),
            (m.cutAt victim c split thiefWorkerId thiefMirrorId now).2) := by
  unfold ChunkManager.stealFrom
  cases hc : m.chunks[victim]? with
  | none => exact .inl rfl
  | some c =>
    dsimp only
    split
    · exact .inl rfl
    · cases share.bytes (c.unreceived m.cells) with
      | none => exact .inl rfl
      | some keep =>
        dsimp only
        split
        · exact .inl rfl
        · rename_i hgo
          obtain ⟨hend, htop, hsplit, hin, hlen⟩ := @Aligned.split_bounds m total h victim c hc (max keep 1)
            (by omega) (by omega)
          rw [hend, hsplit, ByteRange.new_eq_ok hin]
          have hstart : c.range.start ≤ m.missing c := Nat.le_trans (Nat.le_max_right _ _) (Nat.le_max_left _ _)
          exact .inr ⟨c, _, rfl, hstart, by omega, hin, by omega, rfl⟩

theorem Aligned.stealFrom (h : m.Aligned total) (victim thiefWorkerId thiefMirrorId : Nat) {minBytes : Nat}
    (hmin : 0 < minBytes) (share : Share) (now : Nat) :
    Aligned (m.stealFrom victim thiefWorkerId thiefMirrorId minBytes share now).2 total := by
  rcases h.steals victim thiefWorkerId thiefMirrorId hmin share now with
    heq | ⟨c, split, hc, hstart, hkeeps, hin, _, heq⟩
  · rw [heq]
    exact h
  · rw [heq]
    have hcut : Aligned (m.truncate victim c (split - 1)) total := h.truncate hc (by omega) (by omega)
    have hpush := @Aligned.push _ _ hcut ⟨split, c.range.end_⟩ hin (h.entry victim c hc).inFile .unassigned
    refine hpush.assign ?_ thiefWorkerId thiefMirrorId now
    exact getElem?_concat_some.mpr (.inr ⟨rfl, rfl⟩)

/-- From any state of the chunks, a steal leaves both halves workable or
nothing changed. -/
theorem Aligned.stolen_stealFrom (h : m.Aligned total) (victim thiefWorkerId thiefMirrorId : Nat) {minBytes : Nat}
    (hmin : 0 < minBytes) (share : Share) (now : Nat) :
    m.Stolen minBytes victim (m.stealFrom victim thiefWorkerId thiefMirrorId minBytes share now) := by
  rcases h.steals victim thiefWorkerId thiefMirrorId hmin share now with
    heq | ⟨c, split, hc, hstart, hkeeps, hin, hleast, heq⟩
  · rw [heq]
    rfl
  · rw [heq]
    exact ⟨rfl, c, split, hc, h.workable hc hstart hkeeps hin hleast thiefWorkerId thiefMirrorId now⟩

/-- A steal picked asks for a byte at least. -/
def Picked.Least : Picked → Prop
  | .silent .. => True
  | .victim _ _ _ minBytes .. => 0 < minBytes

structure Session.Aligned (s : Session) (total : Nat) : Prop where
  manager : s.manager.Aligned total
  picked : ∀ p ∈ s.picked, p.Least

theorem Session.Aligned.idle {m : ChunkManager} (h : m.Aligned total) : Session.Aligned ⟨m, none⟩ total :=
  ⟨h, by simp⟩

/-- Every event keeps the chunks aligned. -/
theorem Session.Aligned.step {s s' : Session} {e : Event} (hs : s.Aligned total) (hstep : s.step e = some s') :
    s'.Aligned total := by
  have h := hs.manager
  cases e <;> simp only [Session.step] at hstep
  case getNextWork workerId mirrorId now =>
    rw [locked_some hstep]
    exact .idle (h.getNextWork workerId mirrorId now)
  case assignAt workerId mirrorId start end_ now =>
    rw [locked_some hstep]
    exact .idle (h.assignAt workerId mirrorId start end_ now)
  case pickSilent thiefWorkerId thiefMirrorId minSilence now =>
    rw [locked_some hstep]
    split
    · exact .idle h
    · refine ⟨h, fun p hp => ?_⟩
      obtain ⟨id, _, rfl⟩ := Option.map_eq_some_iff.mp hp
      exact trivial
  case pickVictim victim thiefWorkerId thiefMirrorId minBytes share now =>
    rw [locked_some hstep]
    split
    · refine ⟨h, fun p hp => ?_⟩
      cases hp
      show 0 < max minBytes 1
      omega
    · exact .idle h
  case takePicked =>
    obtain ⟨p, hp, rfl⟩ := Option.map_eq_some_iff.mp hstep
    have hleast := hs.picked p hp
    cases p with
    | silent id thiefWorkerId thiefMirrorId now => exact .idle (h.takeOver id thiefWorkerId thiefMirrorId now)
    | victim id thiefWorkerId thiefMirrorId minBytes share now =>
      exact .idle (h.stealFrom id thiefWorkerId thiefMirrorId hleast share now)
  case markCompleted chunkId =>
    rw [locked_some hstep]
    exact .idle (h.markCompleted chunkId)
  case markFailed chunkId reason minDelay counts now backoffDelay =>
    rw [locked_some hstep]
    exact .idle (h.markFailed chunkId reason minDelay counts now backoffDelay)
  case abort chunkId reason =>
    rw [locked_some hstep]
    refine .idle ?_
    unfold ChunkManager.abort
    split
    · exact h.congr rfl rfl
    · exact h
  case store lease pos =>
    cases hstep
    exact ⟨h.withCells (fun _ _ => store_endOffset _ _ _ _) le_rfl, hs.picked⟩
  case tell attempt a =>
    cases hstep
    exact ⟨h.withCells (fun _ _ => rfl) le_rfl, hs.picked⟩

theorem aligned_start {resumed : List ByteRange} (hsize : total ≤ u64Max) (hvalid : ∀ r ∈ resumed, r.Valid)
    (baseChunkSize maxRetries : Nat) : (Session.start total baseChunkSize maxRetries resumed).manager.Aligned total := by
  have h := books_withResumedRanges baseChunkSize hsize hvalid
  refine ⟨hsize, fun i c hc => ?_, h.distinct⟩
  have e := h.entry i c hc
  have hlease := (resumed_chunk hvalid hc).1
  exact ⟨e.id, h.valid hc, h.inFile hc, congrArg Lease.endOffset hlease, e.leased⟩

theorem aligned_inductive (total : Nat) :
    (sessions total).toTSys.Inductive (Session.Aligned · total) where
  init := by
    rintro s ⟨hsize, base, maxRetries, resumed, hvalid, rfl⟩
    exact .idle (aligned_start hsize hvalid base maxRetries)
  step := by
    rintro s s' h ⟨e, hstep⟩
    exact h.step hstep

/-- So it does from every state that any order of the operations reaches,
with stores in between: both looks at once, or the second one after whatever
was stored since the first. -/
theorem steals_leave_both_workable (total : Nat) :
    (sessions total).toTSys.Invariant fun s =>
      ∀ victim thiefWorkerId thiefMirrorId minBytes share now,
        let m := s.manager
        m.Stolen (max minBytes 1) victim (m.stealWork thiefWorkerId thiefMirrorId minBytes victim share now) ∧
        m.Stolen (max minBytes 1) victim
          (m.stealFrom victim thiefWorkerId thiefMirrorId (max minBytes 1) share now) ∧
        m.stealFromU64 victim thiefWorkerId thiefMirrorId (max minBytes 1) share now =
          some (m.stealFrom victim thiefWorkerId thiefMirrorId (max minBytes 1) share now) := by
  intro s hreach victim thiefWorkerId thiefMirrorId minBytes share now m
  have h := ((aligned_inductive total).invariant s hreach).manager
  have hmin : 0 < max minBytes 1 := Nat.lt_of_lt_of_le Nat.one_pos (Nat.le_max_right _ _)
  have hsteal := h.stolen_stealFrom victim thiefWorkerId thiefMirrorId hmin share now
  refine ⟨?_, hsteal, h.stealFromU64_eq victim thiefWorkerId thiefMirrorId hmin share now⟩
  unfold stealWork
  split
  · rfl
  · split
    · exact hsteal
    · rfl

/-- A worker that wrote one of four bytes keeps one more; the thief gets two. -/
theorem steals_leave_both_workable_four : ∃ s, (sessions 4).run (Session.start 4 0 8 []) [
      .getNextWork 0 0 0, .store 0 1, .pickVictim 0 1 0 1 .half 0] = some s ∧
    (s.manager.stealFrom 0 1 0 (max 1 1) .half 0).1.map (·.2.range) = some ⟨2, 3⟩ ∧
    s.manager.Stolen (max 1 1) 0 (s.manager.stealFrom 0 1 0 (max 1 1) .half 0) := by
  have hrun : ∃ s, (sessions 4).run (Session.start 4 0 8 []) [
      .getNextWork 0 0 0, .store 0 1, .pickVictim 0 1 0 1 .half 0] = some s ∧
      (s.manager.stealFrom 0 1 0 (max 1 1) .half 0).1.map (·.2.range) = some ⟨2, 3⟩ := by
    rw [start_four]
    exact ⟨_, rfl, rfl⟩
  obtain ⟨s, hs, hrange⟩ := hrun
  have hreach : (sessions 4).toTSys.Reachable s := Machine.reachable_run (.init starts_four) hs
  exact ⟨s, hs, hrange, (steals_leave_both_workable 4 s hreach 0 1 0 1 .half 0).2.1⟩

end ChunkManager

end Hyperfetch
