import Hyperfetch.Worker.Download

/-!
# What a download's workers can rely on

Nothing counts as on disk that nobody wrote, whatever the workers' order
(`counted_is_written`); and a chunk in flight has one worker, whom nothing
its predecessor does can disturb (`takeover_is_final`).
-/

namespace Hyperfetch

open Weft ChunkManager

/-! ## Nothing counts that nobody wrote -/

/-- What a chunk counts as on disk is written. -/
theorem writtenPrefix_written {m : ChunkManager} {total : Nat} {written : Nat → Bool}
    {held : Nat → Option Chunk} (hbooks : m.Books total) (h : Custody m written held) {r : ByteRange}
    (hr : r ∈ m.chunks.filterMap (·.writtenPrefix m.cells)) :
    r.Valid ∧ ∀ b, r.start ≤ b → b ≤ r.end_ → written b = true := by
  obtain ⟨c, hc, hcounts⟩ := List.mem_filterMap.mp hr
  obtain ⟨i, hi⟩ := List.mem_iff_getElem?.mp hc
  have hvalid := hbooks.valid hi
  have hin := hbooks.inFile hi
  have hbounded := hbooks.bounded
  unfold Chunk.writtenPrefix at hcounts
  split at hcounts
  · rename_i hdone
    cases hcounts
    exact ⟨⟨hvalid, by omega⟩, fun b h1 h2 => h.done i c hi hdone b h1 (Nat.lt_succ_of_le h2)⟩
  · rename_i hopen
    dsimp only at hcounts
    split at hcounts
    · rename_i hpos
      cases hcounts
      unfold saturatingAdd at hpos ⊢
      refine ⟨⟨?_, ?_⟩, fun b h1 h2 =>
        h.written i c hi (not_completed_of_ne hopen) b h1 ?_⟩ <;> dsimp only at * <;> omega
    · cases hcounts

/-- Once all chunks are completed every byte of the file is written. -/
theorem Download.Sound.whole {total : Nat} {s : Download} (h : s.Sound total)
    (hall : s.manager.isAllCompleted = true) : ∀ b < total, s.written b = true := by
  intro b hb
  have hbooks := h.session.books
  have hcount : s.manager.chunks.countP Chunk.isCompleted = s.manager.chunks.length := by
    rw [← hbooks.completed]
    simpa [isAllCompleted] using hall
  obtain ⟨c, hc, h1, h2⟩ := hbooks.holds hb
  obtain ⟨i, hi⟩ := List.mem_iff_getElem?.mp hc
  exact h.custody.done i c hi (List.countP_eq_length.mp hcount c hc) b h1 (Nat.lt_succ_of_le h2)

/-- Every byte of `completed_ranges` is written, and once all chunks are
completed so is every byte of the file. -/
theorem counted_is_written (total : Nat) :
    (downloads total).toTSys.Invariant fun s =>
      (∀ r ∈ s.manager.completedRanges, ∀ b, r.start ≤ b → b ≤ r.end_ → s.written b = true) ∧
        (s.manager.isAllCompleted = true → ∀ b < total, s.written b = true) := by
  intro s hreach
  have hsound := Download.sound_invariant total s hreach
  have hbooks := hsound.session.books
  refine ⟨fun r hr b h1 h2 => ?_, hsound.whole⟩
  have hcounts := fun q hq => writtenPrefix_written (r := q) hbooks hsound.custody hq
  obtain ⟨q, hq, hq1, hq2⟩ := ((mergeRanges_spec fun q hq => (hcounts q hq).1).2 b).mp ⟨r, hr, h1, h2⟩
  exact (hcounts q hq).2 b hq1 hq2

/-- A download of a file of four bytes, nothing on disk. -/
def Download.four : Download := ⟨.start 4 0 8 [], fun _ => false, fun _ => none⟩

theorem Download.starts_four : Download.four.starts 4 :=
  ⟨by decide, ⟨0, 8, [], by simp, rfl, by simp⟩, fun _ => rfl⟩

/-- One worker fetches all four bytes. -/
theorem counted_is_written_four : ∃ s, (downloads 4).run .four [
      .getNextWork 0 0 0, .work 0 .go, .work 0 .go, .work 0 .go, .work 0 (.bytes 4), .work 0 .go, .work 0 .go,
      .work 0 .bodyEnded, .work 0 .go, .work 0 .go, .write 0, .store 0, .work 0 .go,
      .settle 0 "" (.retry 0 true) 0 (fun _ => 0)] = some s ∧
    s.manager.isAllCompleted = true ∧ ∀ b < 4, s.written b = true := by
  have hrun : ∃ s, (downloads 4).run .four [
      .getNextWork 0 0 0, .work 0 .go, .work 0 .go, .work 0 .go, .work 0 (.bytes 4), .work 0 .go, .work 0 .go,
      .work 0 .bodyEnded, .work 0 .go, .work 0 .go, .write 0, .store 0, .work 0 .go,
      .settle 0 "" (.retry 0 true) 0 (fun _ => 0)] = some s ∧ s.manager.isAllCompleted = true := by
    rw [Download.four, start_four]
    exact ⟨_, rfl, rfl⟩
  obtain ⟨s, hs, hall⟩ := hrun
  exact ⟨s, hs, hall, (counted_is_written 4 s (Machine.reachable_run (.init Download.starts_four) hs)).2 hall⟩

namespace Download

/-! ## A chunk in flight has one worker -/

/-- Worker `w` is at chunk `i`, and its lease is in force. -/
def At (s : Download) (w i : Nat) : Prop :=
  ∃ job, s.workers w = some job ∧ job.chunk.id = i ∧ (s.lease job.chunk).revoked = false

/-- The chunk a live worker is at is assigned, and a byte is in one such chunk
at most, with one worker. -/
theorem Sound.exclusive {total : Nat} {s : Download} (h : s.Sound total) {w w' i i' : Nat}
    (hw : s.At w i) (hw' : s.At w' i') {c c' : Chunk} (hc : s.manager.chunks[i]? = some c)
    (hc' : s.manager.chunks[i']? = some c') {b : Nat} (hb : c.range.start ≤ b ∧ b ≤ c.range.end_)
    (hb' : c'.range.start ≤ b ∧ b ≤ c'.range.end_) : c.isInFlight = true ∧ i = i' ∧ w = w' := by
  have hii : i = i' := h.session.books.tiling.unique hc hc' hb hb'
  subst hii
  obtain ⟨job, hjob, rfl, hforce⟩ := hw
  obtain ⟨job', hjob', hid, hforce'⟩ := hw'
  have hheld : holders s.workers w = some job.chunk := by simp [holders, hjob]
  have hheld' : holders s.workers w' = some job'.chunk := by simp [holders, hjob']
  obtain ⟨d, hd, hflight, _⟩ := h.custody.owns w job.chunk hheld hforce
  rw [hc] at hd
  cases hd
  exact ⟨hflight, rfl, (h.custody.sole hheld hheld' hforce hforce' hid).symm⟩

/-! ## A worker that lost its chunk -/

/-- A worker whose lease is revoked changes no chunk, no counter and no other
lease. -/
theorem revoked_step {s s' : Download} {e : Event} {w : Nat} {job : Job} (hjob : s.workers w = some job)
    (hrevoked : (s.lease job.chunk).revoked = true) (he : e.attempt = some w)
    (hstep : s.step e = some s') :
    s'.manager.chunks = s.manager.chunks ∧ s'.manager.retryQueue = s.manager.retryQueue ∧
      s'.manager.completed = s.manager.completed ∧
      ∀ a, a ≠ job.chunk.lease → s'.manager.cells.leases a = s.manager.cells.leases a := by
  cases e <;> simp only [Event.attempt, reduceCtorEq, Option.some.injEq] at he <;> subst he <;>
    simp only [Download.step, hjob] at hstep
  case work choice =>
    simp only [Option.bind_some] at hstep
    obtain ⟨stage, _, rfl⟩ := Option.map_eq_some_iff.mp hstep
    exact ⟨rfl, rfl, rfl, fun _ _ => rfl⟩
  case write =>
    split at hstep <;> cases hstep
    exact ⟨rfl, rfl, rfl, fun _ _ => rfl⟩
  case store =>
    split at hstep
    · rename_i chunk batch purpose heq
      cases hstep
      cases heq
      exact ⟨rfl, rfl, rfl, fun a ha => by rw [store_lease, if_neg ha]⟩
    · cases hstep
  case tell a =>
    cases hstep
    exact ⟨rfl, rfl, rfl, fun _ _ => rfl⟩
  case settle error verdict now backoffDelay =>
    split at hstep
    · rename_i chunk outcome _ heq
      cases hstep
      cases heq
      have hsame : (Hyperfetch.settle s.manager chunk outcome error verdict now backoffDelay) = s.manager ∨
          Hyperfetch.settle s.manager chunk outcome error verdict now backoffDelay =
            s.manager.abort chunk.id error := by
        have hrev : (s.manager.cells.leases chunk.lease).revoked = true := hrevoked
        cases outcome with
        | ok => exact .inl (by simp [Hyperfetch.settle, hrev])
        | err kind =>
          by_cases hkind : kind = .fatal
          · exact .inr (by simp [Hyperfetch.settle, hrev, hkind])
          · exact .inl (by simp [Hyperfetch.settle, hrev, hkind])
      rcases hsame with hsame | hsame
      · simp only [manager, hsame]
        exact ⟨trivial, trivial, trivial, fun _ _ => trivial⟩
      · simp only [manager, hsame, ChunkManager.abort]
        split <;> exact ⟨rfl, rfl, rfl, fun _ _ => rfl⟩
    · cases hstep
  case quit =>
    cases hstep
    exact ⟨rfl, rfl, rfl, fun _ _ => rfl⟩

/-- Every event but a store only grows the manager. -/
theorem Sound.step_grows {total : Nat} {s s' : Download} {e : Event} (h : s.Sound total)
    (hstep : s.step e = some s') : (∃ w, e = .store w) ∨ s.manager.Grows s'.manager := by
  have hbooks := h.session.books
  have hhanded : ∀ {w : Nat} {stage : Stage} {r : Option Chunk × ChunkManager},
      Serves s.manager s.written (holders s.workers) w r →
        s.manager.Grows (s.handed w stage r).manager := fun hr => hr.grows
  cases e <;> simp only [Download.step] at hstep
  case store w => exact .inl ⟨w, rfl⟩
  case getNextWork w mirrorId now =>
    cases asks_some hstep
    exact .inr (hhanded (serves_getNextWork h.custody hbooks w mirrorId now))
  case assignAt w mirrorId start end_ now =>
    cases asks_some hstep
    exact .inr (hhanded (serves_assignAt h.custody hbooks w mirrorId start end_ now))
  case pickSilent w mirrorId minSilence now =>
    obtain ⟨session, hsession, rfl⟩ := Option.map_eq_some_iff.mp (asks_some hstep)
    have hmanager := pick_manager hsession (.inl ⟨_, _, _, _, rfl⟩)
    exact .inr (show s.manager.Grows session.manager from hmanager ▸ .refl _)
  case pickVictim v w mirrorId minBytes share now =>
    obtain ⟨session, hsession, rfl⟩ := Option.map_eq_some_iff.mp (asks_some hstep)
    have hmanager := pick_manager hsession (.inr ⟨_, _, _, _, _, _, rfl⟩)
    exact .inr (show s.manager.Grows session.manager from hmanager ▸ .refl _)
  case takePicked =>
    obtain ⟨p, hp, rfl⟩ := Option.map_eq_some_iff.mp hstep
    have hfly := h.session.picked p hp
    cases p with
    | silent id w mirrorId now =>
      obtain ⟨c, hc, hin⟩ := hfly
      exact .inr (hhanded (serves_takeOver h.custody hbooks hc hin w mirrorId now))
    | victim id w mirrorId minBytes share now =>
      obtain ⟨hmin, c, hc, hin⟩ := hfly
      exact .inr (hhanded (serves_stealFrom h.custody hbooks hc (inFlight_open hin).1 hmin w mirrorId share now))
  case work w choice =>
    obtain ⟨job, _, hmap⟩ := Option.bind_eq_some_iff.mp hstep
    obtain ⟨stage, _, rfl⟩ := Option.map_eq_some_iff.mp hmap
    exact .inr (.refl _)
  case write w =>
    split at hstep <;> cases hstep
    exact .inr (.refl _)
  case tell w a =>
    obtain ⟨job, _, rfl⟩ := Option.map_eq_some_iff.mp hstep
    exact .inr ⟨le_rfl, fun _ _ => rfl, fun _ _ => le_rfl, fun _ _ hr => hr, fun _ c hc => ⟨c, hc, .inl rfl⟩⟩
  case settle w error verdict now backoffDelay =>
    split at hstep
    · rename_i chunk outcome _ hjob
      cases hstep
      have hheld : holders s.workers w = some chunk := by simp [holders, hjob]
      exact .inr (settled_settle h.custody hbooks hheld (h.knows w _ hjob) error verdict now backoffDelay).grows
    · cases hstep
  case quit w =>
    obtain ⟨job, _, rfl⟩ := Option.map_eq_some_iff.mp hstep
    exact .inr (.refl _)

/-- Lease `old` is revoked, and chunk `id` has another. -/
structure Lost (id old : Nat) (s : Download) : Prop where
  allocated : old < s.manager.cells.next
  revoked : (s.manager.cells.leases old).revoked = true
  moved : ∃ c, s.manager.chunks[id]? = some c ∧ c.lease ≠ old

/-- A lease once lost stays lost. -/
theorem Lost.step {total id old : Nat} {s s' : Download} {e : Event} (h : s.Sound total)
    (hlost : s.Lost id old) (hstep : s.step e = some s') : s'.Lost id old := by
  obtain ⟨c, hc, hne⟩ := hlost.moved
  rcases h.step_grows hstep with ⟨w, rfl⟩ | hgrows
  · simp only [Download.step] at hstep
    split at hstep
    · rename_i chunk batch purpose hjob
      cases hstep
      refine ⟨hlost.allocated, ?_, c, hc, hne⟩
      show ((s.manager.cells.store chunk.lease batch.end_).leases old).revoked = true
      rw [store_lease]
      split
      · rename_i heq
        rw [← heq]
        exact hlost.revoked
      · exact hlost.revoked
    · cases hstep
  · obtain ⟨c', hc', hl⟩ := hgrows.lease id c hc
    refine ⟨Nat.lt_of_lt_of_le hlost.allocated hgrows.next, hgrows.revoked old hlost.allocated hlost.revoked,
      c', hc', ?_⟩
    have := hlost.allocated
    rcases hl with hl | hl
    · exact hl ▸ hne
    · omega

/-- What a takeover that hands out leaves lost: the lease the chunk had. -/
theorem Sound.lost_takeOver {total : Nat} {s s' : Download} (h : s.Sound total) {id w mirrorId now : Nat}
    (hpicked : s.session.picked = some (.silent id w mirrorId now)) (hstep : s.step .takePicked = some s')
    {chunk : Chunk} (hgiven : (s.manager.takeOver id w mirrorId now).1 = some chunk) {c : Chunk}
    (hc : s.manager.chunks[id]? = some c) : s'.Lost id c.lease := by
  simp only [Download.step, hpicked, Option.map_some, Option.some.injEq] at hstep
  subst hstep
  obtain ⟨c', hc', hflight⟩ := h.session.picked _ hpicked
  rw [hc] at hc'
  cases hc'
  obtain ⟨hrevoked, hat, hflight'⟩ := takeOver_hands h.session.books hc hflight hgiven
  have hserves := serves_takeOver h.custody h.session.books hc hflight w mirrorId now
  refine ⟨Nat.lt_of_lt_of_le (h.session.books.leases id c hc) hserves.grows.next, hrevoked, chunk, hat,
    fun heq => ?_⟩
  have hforce := hserves.custody.inForce id chunk hat (inFlight_open hflight').1
  rw [heq, hrevoked] at hforce
  cases hforce

/-- What the books say of chunk `id`: its status, offset, end and failures. -/
def view (s : Download) (id : Nat) : Option (ChunkStatus × Nat × Nat × Nat) :=
  (s.manager.chunks[id]?).map fun c => (c.status, (s.lease c).currentOffset, (s.lease c).endOffset, c.retries)

theorem Lost.step_view {id : Nat} {s s' : Download} {e : Event} {w : Nat} {job : Job}
    (hlost : s.Lost id job.chunk.lease) (hjob : s.workers w = some job) (he : e.attempt = some w)
    (hstep : s.step e = some s') :
    s'.view id = s.view id ∧ s'.manager.retryQueue = s.manager.retryQueue ∧
      s'.manager.completed = s.manager.completed := by
  obtain ⟨hchunks, hqueue, hcompleted, hleases⟩ := revoked_step hjob hlost.revoked he hstep
  obtain ⟨c, hc, hne⟩ := hlost.moved
  exact ⟨by simp only [view, hchunks, hc, Option.map_some, lease, hleases c.lease hne], hqueue, hcompleted⟩

end Download

/-- In every state, a chunk that holds a byte and has a live worker is
assigned, and no other chunk with a live worker, and no other live worker of
it, has that byte. And once a takeover hands a chunk out, no later step of the
attempt that held its lease changes the chunk's status, offset, end or
failures, the retry queue or the counter. -/
theorem takeover_is_final (total : Nat) :
    (downloads total).toTSys.Invariant (fun s => ∀ (w w' i i' : Nat) (c c' : Chunk) (b : Nat),
        s.At w i → s.At w' i' → s.manager.chunks[i]? = some c → s.manager.chunks[i']? = some c' →
        (c.range.start ≤ b ∧ b ≤ c.range.end_) → (c'.range.start ≤ b ∧ b ≤ c'.range.end_) →
        c.isInFlight = true ∧ i = i' ∧ w = w') ∧
      (downloads total).toTSys.Invariant (fun s => ∀ (id thief mirrorId now : Nat) (c chunk : Chunk),
        s.session.picked = some (.silent id thief mirrorId now) → s.manager.chunks[id]? = some c →
        (s.manager.takeOver id thief mirrorId now).1 = some chunk →
        ∀ s₁, s.step .takePicked = some s₁ → ∀ s₂, (downloads total).toTSys.Steps s₁ s₂ →
        ∀ (w : Nat) (job : Job) (e : Download.Event) (s₃ : Download),
          s₂.workers w = some job → job.chunk.lease = c.lease → e.attempt = some w →
          s₂.step e = some s₃ →
          s₃.view id = s₂.view id ∧ s₃.manager.retryQueue = s₂.manager.retryQueue ∧
            s₃.manager.completed = s₂.manager.completed) := by
  refine ⟨fun s hreach w w' i i' c c' b hw hw' hc hc' hb hb' =>
    (Download.sound_invariant total s hreach).exclusive hw hw' hc hc' hb hb', ?_⟩
  intro s hreach id thief mirrorId now c chunk hpicked hc hgiven s₁ hstep s₂ hsteps w job e s₃ hjob hl he hstep'
  have hsound := Download.sound_invariant total
  have hreach₁ : (downloads total).toTSys.Reachable s₁ := .step hreach ⟨.takePicked, hstep⟩
  have hlost : s₂.Lost id c.lease :=
    TSys.Reachable.steps_induction hreach₁ hsteps
      ((hsound s hreach).lost_takeOver hpicked hstep hgiven hc)
      fun t t' ht hlost ⟨_, htt'⟩ => hlost.step (hsound t ht) htt'
  rw [← hl] at hlost
  exact hlost.step_view hjob he hstep'

/-- Worker 1 takes over from worker 0, which then settles its failed attempt. -/
theorem takeover_is_final_four : ∃ s s₁ s₂ s₃, (downloads 4).run .four [
      .getNextWork 0 0 0, .work 0 .go, .work 0 .go, .work 0 .go, .tell 0 ⟨some (0, 0), some 0, 0⟩,
      .pickSilent 1 0 (fun _ => 1) 5] = some s ∧
    s.step .takePicked = some s₁ ∧
    (downloads 4).run s₁ [.work 0 .takenOver, .work 0 .go] = some s₂ ∧
    s₂.step (.settle 0 "" (.retry 0 true) 0 (fun _ => 0)) = some s₃ ∧
    s₃.view 0 = s₂.view 0 ∧ s₃.manager.retryQueue = s₂.manager.retryQueue ∧
      s₃.manager.completed = s₂.manager.completed := by
  have hrun : ∃ s s₁ s₂ s₃, (downloads 4).run .four [
      .getNextWork 0 0 0, .work 0 .go, .work 0 .go, .work 0 .go, .tell 0 ⟨some (0, 0), some 0, 0⟩,
      .pickSilent 1 0 (fun _ => 1) 5] = some s ∧
    s.step .takePicked = some s₁ ∧
    (downloads 4).run s₁ [.work 0 .takenOver, .work 0 .go] = some s₂ ∧
    s₂.step (.settle 0 "" (.retry 0 true) 0 (fun _ => 0)) = some s₃ ∧
    s.session.picked = some (.silent 0 1 0 5) ∧ (∃ c, s.manager.chunks[0]? = some c ∧
      (∃ chunk, (s.manager.takeOver 0 1 0 5).1 = some chunk) ∧
      ∃ job, s₂.workers 0 = some job ∧ job.chunk.lease = c.lease) := by
    rw [Download.four, start_four]
    exact ⟨_, _, _, _, rfl, rfl, rfl, rfl, rfl, _, rfl, ⟨_, rfl⟩, _, rfl, rfl⟩
  obtain ⟨s, s₁, s₂, s₃, hs, hs₁, hs₂, hs₃, hpicked, c, hc, ⟨chunk, hgiven⟩, job, hjob, hl⟩ := hrun
  exact ⟨s, s₁, s₂, s₃, hs, hs₁, hs₂, hs₃, (takeover_is_final 4).2 s
    (Machine.reachable_run (.init Download.starts_four) hs) 0 1 0 5 c chunk hpicked hc hgiven s₁ hs₁ s₂
    (Machine.steps_run hs₂) 0 job _ s₃ hjob hl rfl hs₃⟩

end Hyperfetch
