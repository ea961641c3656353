import Hyperfetch.Storage.Steps
import Hyperfetch.Storage.Follow
import Mathlib.Tactic

/-!
# A writer's digest (`storage.rs`)

Whatever the calls, in whatever order they land and are recorded among the
reads of the prefix hasher and of blocks hashed back, the digest a writer gives
is the file's (`digest_is_the_files`), unless a hash is outlasted by `2 ^ 32`
writes into its block: versions are counted in 32 bits (`stale_hash_kept`).
-/

namespace Hyperfetch

open Weft

namespace Storage

variable {D X H : Type} {L : Layout D X H} {s s' : State D X}

/-! ## Reading with nothing else going on -/

omit s' in
theorem contents_append (s : State D X) {start mid stop : Nat} (hstart : start ≤ mid) (hstop : mid ≤ stop) :
    s.contents start mid ++ s.contents mid stop = s.contents start stop := by
  apply List.ext_getElem?
  intro i
  rw [getElem?_contents]
  by_cases hi : i < mid - start
  · rw [List.getElem?_append_left (by rw [length_contents]; exact hi), getElem?_contents, if_pos hi,
      if_pos (by omega)]
  · rw [List.getElem?_append_right (by rw [length_contents]; omega), length_contents, getElem?_contents,
      show mid + (i - (mid - start)) = start + i by omega]
    by_cases hi' : i < stop - start
    · rw [if_pos hi', if_pos (by omega)]
    · rw [if_neg hi', if_neg (by omega)]

/-- The rest of the file is read, whatever is hashed on the way. -/
theorem Sound.readTail (h : Sound L s) (unhashed : List (Nat × Nat)) {start : Nat} (hstart : start ≤ L.size) :
    Sound L (s.readTail L unhashed start).1 ∧ Rehashed s (s.readTail L unhashed start).1 ∧
      (s.readTail L unhashed start).2 = s.contents start L.size := by
  induction hn : L.size - start using Nat.strongRecOn generalizing s start with
  | ind n ih =>
    rw [State.readTail]
    by_cases hlt : start < L.size
    · rw [if_pos hlt]
      have hpos := L.block_pos
      obtain ⟨hsound, hr⟩ := h.hashRead unhashed start
        (s.contents start (start + min (L.size - start) (max fileHashBlock L.block))) fun p _ _ _ => freshIn_contents _ _ _ _ _
      obtain ⟨hsound', hr', hread⟩ := ih _ (by omega) hsound
        (show start + min (L.size - start) (max fileHashBlock L.block) ≤ L.size by omega) rfl
      refine ⟨hsound', hr.trans hr', ?_⟩
      show s.contents start _ ++ (State.readTail L _ unhashed _).2 = _
      rw [hread, hr.contents]
      exact contents_append s (by omega) (by omega)
    · rw [if_neg hlt]
      refine ⟨h, .refl s, ?_⟩
      rw [State.contents, show L.size - start = 0 by omega]
      rfl

/-- What a block's hash is, of the file as it is. -/
def State.hashOf (L : Layout D X H) (s : State D X) (i : Nat) : D :=
  L.hashBlock i (s.contents (L.start i) (L.stop i))

/-- A hash kept of a block no call is about to change is of its contents. -/
theorem Sound.hash_eq (h : Sound L s) {i : Nat} (hsettled : ∀ b, L.start i ≤ b → b < L.stop i → ¬ Unsettled s.writes b)
    {d : D} (hd : d ∈ (s.blocks i).hash) : d = s.hashOf L i := by
  obtain ⟨bytes, hlen, rfl, hfresh⟩ := (h.kept i).hash d hd
  rw [State.hashOf, hfresh.eq_contents hlen hsettled]

theorem Sound.blockHashes (h : Sound L s) (hsettled : ∀ b, ¬ Unsettled s.writes b) :
    Sound L (s.blockHashes L).1 ∧ Rehashed s (s.blockHashes L).1 ∧
      (s.blockHashes L).2 = (List.range L.blocks).map (s.hashOf L) := by
  have hfound : ∀ i, (s.blocks i).hash.getD (s.hashOf L i) = s.hashOf L i := by
    intro i
    cases hhash : (s.blocks i).hash with
    | none => rfl
    | some d => exact h.hash_eq (fun b _ _ => hsettled b) hhash
  have hblocks : ∀ i, (s.blockHashes L).1.blocks i =
      if i < L.blocks then { s.blocks i with hash := some ((s.blocks i).hash.getD (s.hashOf L i)) } else s.blocks i :=
    fun _ => rfl
  have hr : Rehashed s (s.blockHashes L).1 := by
    refine ⟨rfl, fun i => ?_⟩
    rw [hblocks]
    split <;> rfl
  refine ⟨h.rehash hr fun i => ?_, hr, List.map_congr_left fun i _ => hfound i⟩
  by_cases hi : i < L.blocks
  · have hblock := (hblocks i).trans (if_pos hi)
    refine .inr ⟨fun d hd => ?_, fun head hh => ?_⟩
    · rw [hblock] at hd
      refine ⟨s.contents (L.start i) (L.stop i), length_contents _ _ _, ?_, hr.freshIn (freshIn_contents _ _ _ _ _)⟩
      exact (Option.some.inj hd).symm.trans (hfound i)
    · rw [hblock] at hh
      obtain ⟨hfits, hhead⟩ := (h.kept i).head head hh
      exact ⟨hfits, hr.freshIn hhead⟩
  · exact .inl ((hblocks i).trans (if_neg hi))

/-! ## Merging -/

theorem slice_contents (s : State D X) (stop start n : Nat) :
    ((s.contents 0 stop).drop start).take n = s.contents start (min (start + n) stop) := by
  apply List.ext_getElem?
  intro i
  rw [List.getElem?_take, List.getElem?_drop, getElem?_contents, getElem?_contents, Nat.zero_add]
  by_cases hi : i < min (start + n) stop - start
  · rw [if_pos hi, if_pos (by omega), if_pos (by omega)]
  · rw [if_neg hi]
    by_cases hn : i < n
    · rw [if_pos hn, if_neg (by omega)]
    · rw [if_neg hn]

/-- The blocks of a file longer than one are the stretches of its tree. -/
theorem map_hashOf (s : State D X) (hlong : L.block < L.size) :
    (List.range L.blocks).map (s.hashOf L) = L.tree.cvs L.level 0 (s.contents 0 L.size) := by
  rw [TreeHash.cvs_eq_map, length_contents]
  show (List.range ((L.size + L.block - 1) / L.block)).map _ = (List.range ((L.size - 0 + L.block - 1) / L.block)).map _
  rw [Nat.sub_zero]
  apply List.map_congr_left
  intro i _
  show L.hashBlock i _ = _
  rw [Layout.hashBlock, if_neg (Nat.not_le.mpr hlong), Nat.zero_add, slice_contents]
  rfl

/-- The hashes of all blocks, merged, are the file's. -/
theorem merge_hashOf (s : State D X) :
    L.merge ((List.range L.blocks).map (s.hashOf L)) = L.tree.hash (s.contents 0 L.size) := by
  have hpos := L.block_pos
  by_cases hlong : L.block < L.size
  · rw [map_hashOf s hlong]
    have hlong' : L.tree.width L.level < (s.contents 0 L.size).length := by
      rw [length_contents]
      exact hlong
    obtain ⟨a, b, hjoin, hroot⟩ := L.tree.joinToTwo_cvs hlong'
    have hcount := L.tree.length_cvs L.level 0 (s.contents 0 L.size)
    match hlist : L.tree.cvs L.level 0 (s.contents 0 L.size) with
    | [] =>
      rw [hlist, List.length_nil, Nat.zero_mul] at hcount
      omega
    | [only] =>
      rw [hlist, List.length_singleton, Nat.one_mul] at hcount
      omega
    | c :: d :: rest =>
      rw [hlist] at hjoin
      rw [Layout.merge_of_two, hjoin]
      exact hroot
  · by_cases hempty : L.size = 0
    · have hnone : L.blocks = 0 := by
        rw [Layout.blocks, hempty]
        exact Nat.div_eq_of_lt (by omega)
      rw [hnone, hempty]
      rfl
    · -- the only block is the file
      have hone : L.blocks = 1 := by
        rw [Layout.blocks]
        exact Nat.div_eq_of_lt_le (by omega) (by omega)
      have hstart : L.start 0 = 0 := Nat.zero_mul _
      have hstop : L.stop 0 = L.size := by
        rw [Layout.stop, hstart]
        omega
      rw [hone]
      show L.hashBlock 0 (s.contents (L.start 0) (L.stop 0)) = _
      rw [Layout.hashBlock, if_pos (by omega), hstart, hstop]

/-! ## The digest -/

theorem settled_of_done (hdone : s.done = true) (b : Nat) : ¬ Unsettled s.writes b := by
  rintro ⟨w, hw, hlanding, _⟩
  have hnot := List.all_eq_true.mp hdone w hw
  cases hphase : w.phase with
  | landing _ =>
    rw [Write.running, hphase] at hnot
    exact Bool.noConfusion hnot
  | hashing _ _ =>
    rw [Write.isLanding, hphase] at hlanding
    exact Bool.noConfusion hlanding

variable [DecidableEq X]

/-- What the prefix hasher leaves to go on from is how the file starts. -/
theorem Sound.stopFollower (h : Sound L s) (hdone : s.done = true) (extra : Option X) :
    (s.stopFollower extra).length ≤ L.size ∧
      s.stopFollower extra = s.contents 0 (s.stopFollower extra).length := by
  unfold State.stopFollower
  cases hfilter : s.follower.filter fun f => decide (some f.algo = extra) && !s.refollow with
  | none => exact ⟨Nat.zero_le _, rfl⟩
  | some f =>
    obtain ⟨hf, hkeep⟩ := Option.filter_eq_some_iff.mp hfilter
    rw [Bool.and_eq_true, Bool.not_eq_true'] at hkeep
    obtain ⟨hlen, _, hfront, _⟩ := h.follows f hf
    exact ⟨hlen, (hfront hkeep.2).eq_contents (Nat.sub_zero _).symm fun b _ _ => settled_of_done hdone b⟩

theorem Sound.digest (h : Sound L s) (hdone : s.done = true) (extra : Option X) :
    Sound L (s.digest L extra).1 ∧ Rehashed { s with follower := none, stopped := true } (s.digest L extra).1 ∧
      (s.digest L extra).2.blake3 = L.tree.hash (s.contents 0 L.size) ∧
      (s.digest L extra).2.extra = extra.map fun algo => (algo, L.other algo (s.contents 0 L.size)) := by
  have hsettled := settled_of_done hdone
  have hjoined : Sound L { s with follower := none, stopped := true } :=
    h.withFollower fun g hg => (Option.not_mem_none g hg).elim
  cases extra with
  | none =>
    obtain ⟨hsound, hr, hhashes⟩ := hjoined.blockHashes hsettled
    refine ⟨hsound, hr, ?_, rfl⟩
    show L.merge (State.blockHashes L { s with follower := none, stopped := true }).2 = _
    rw [hhashes, merge_hashOf]
    rfl
  | some algo =>
    obtain ⟨hlen, hfollowed⟩ := h.stopFollower hdone (some algo)
    obtain ⟨htail, hrtail, hread⟩ := hjoined.readTail
      (State.unhashed L { s with follower := none, stopped := true }
        (s.stopFollower (some algo)).length L.size) hlen
    obtain ⟨hsound, hr, hhashes⟩ := htail.blockHashes fun b => by
      rw [hrtail.writes]
      exact hsettled b
    refine ⟨hsound, hrtail.trans hr, ?_, ?_⟩
    · show L.merge (State.blockHashes L (State.readTail L _ _ _).1).2 = _
      rw [hhashes, merge_hashOf, hrtail.contents]
      rfl
    · show some (algo, L.other algo (s.stopFollower (some algo) ++ (State.readTail L _ _ _).2)) = _
      rw [hread]
      refine congrArg (fun bytes => some (algo, L.other algo bytes)) ?_
      calc s.stopFollower (some algo) ++ s.contents (s.stopFollower (some algo)).length L.size
          = s.contents 0 (s.stopFollower (some algo)).length ++
              s.contents (s.stopFollower (some algo)).length L.size := congrArg (· ++ _) hfollowed
        _ = s.contents 0 L.size := contents_append s (Nat.zero_le _) hlen

/-! ## Runs -/

omit [DecidableEq X] in
theorem Sound.start (file : Nat → UInt8) (onDisk : List (Nat × Nat)) (extra : Option X) :
    Sound L (State.start L file onDisk extra) where
  within := by
    have hadd : ∀ ranges set : List (Nat × Nat), (∀ r ∈ set, r.2 ≤ L.size) →
        ∀ r ∈ ranges.foldl (fun set r => add set (r.1, min (r.2 + 1) L.size)) set, r.2 ≤ L.size := by
      intro ranges
      induction ranges with
      | nil => exact fun _ hset => hset
      | cons r ranges ih => exact fun set hset => ih _ (add_le hset (Nat.min_le_right _ _))
    exact hadd _ [] fun r hr => (List.not_mem_nil hr).elim
  kept i := ⟨fun d hd => (Option.not_mem_none d hd).elim, fun head hh => (Option.not_mem_none head hh).elim⟩
  runs w hw := (List.not_mem_nil hw).elim
  agree w hw := (List.not_mem_nil hw).elim
  follows f hf := by
    obtain ⟨algo, _, rfl⟩ := Option.map_eq_some_iff.mp hf
    exact ⟨Nat.zero_le _, Nat.zero_le _, fun _ => fun b _ hb => (Nat.not_lt_zero b hb).elim,
      fun _ _ _ hphase => nomatch hphase⟩
  scans c hc := (List.not_mem_nil hc).elim

theorem Sound.step {e : Event X} (h : Sound L s) (hpatient : s.Patient) (hstep : s.step L e = some s') :
    Sound L s' := by
  cases e with
  | write offset data => exact h.write hstep
  | land k j => exact h.land hstep
  | record k => exact h.record hstep
  | readBack k b => exact h.readBack hstep
  | keep k readOk => exact h.keep hpatient hstep
  | look => exact h.look hstep
  | followRead b => exact h.followRead hstep
  | followKeep => exact h.followKeep hpatient hstep
  | followOn => exact h.followOn hstep
  | followFail => exact h.followFail hstep
  | stop => exact h.stop hstep
  | scan i => exact h.scan hstep
  | scanRead n b => exact h.scanRead hstep
  | scanKeep n => exact h.scanKeep hpatient hstep
  | digest extra =>
    simp only [State.step] at hstep
    split at hstep
    · rename_i hready
      cases hstep
      exact (h.digest (Bool.and_eq_true _ _ ▸ hready).1 extra).1
    · cases hstep

/-- A writer: any file it starts with, any ranges of it vouched for, and any
steps. -/
def writer (L : Layout D X H) : Machine (State D X) (Event X) where
  init s := ∃ file onDisk extra, s = State.start L file onDisk extra
  step := State.step L

theorem next_reachable {e : Event X} (h : (writer L).toTSys.Reachable s) (hstep : s.step L e = some s') :
    (writer L).toTSys.Reachable s' :=
  h.step ⟨e, hstep⟩

/-- A writer no hash of which is outlasted by `2 ^ 32` writes into its block. -/
def patientWriter (L : Layout D X H) : TSys (State D X) where
  init := (writer L).init
  step s s' := (writer L).toTSys.step s s' ∧ s'.Patient

omit [DecidableEq X] in
theorem patient_start (file : Nat → UInt8) (onDisk : List (Nat × Nat)) (extra : Option X) :
    (State.start L file onDisk extra : State D X).Patient := by
  intro p hp
  cases extra <;> exact (List.not_mem_nil hp).elim

theorem sound_invariant (L : Layout D X H) : (patientWriter L).Invariant fun s => Sound L s ∧ s.Patient := by
  refine TSys.Inductive.invariant ⟨?_, ?_⟩
  · rintro _ ⟨file, onDisk, extra, rfl⟩
    exact ⟨.start file onDisk extra, patient_start file onDisk extra⟩
  · rintro s s' ⟨hsound, hpatient⟩ ⟨⟨e, hstep⟩, hpatient'⟩
    exact ⟨hsound.step hpatient hstep, hpatient'⟩

/-- The digest of a writer is its file's: a hash kept is of the block's
contents, as long as no call is about to change them; once no call runs, so
are all hashes given out; and the digest then is of the whole file, the one a
checksum needs besides included. -/
theorem digest_is_the_files (L : Layout D X H) :
    ∀ s, (patientWriter L).Reachable s →
      (∀ i, (∀ b, L.start i ≤ b → b < L.stop i → ¬ Unsettled s.writes b) →
        ∀ d ∈ (s.blocks i).hash, d = L.hashBlock i (s.contents (L.start i) (L.stop i))) ∧
      (s.done = true →
        (s.blockHashes L).2 = (List.range L.blocks).map fun i => L.hashBlock i (s.contents (L.start i) (L.stop i))) ∧
      (s.done = true → s.joinable = true → ∀ extra,
        (s.digest L extra).2.blake3 = L.tree.hash (s.contents 0 L.size) ∧
          (s.digest L extra).2.extra = extra.map fun algo => (algo, L.other algo (s.contents 0 L.size))) := by
  intro s hreach
  obtain ⟨hsound, _⟩ := sound_invariant L s hreach
  refine ⟨fun i hsettled d hd => hsound.hash_eq hsettled hd, fun hdone => ?_, fun hdone _ extra => ?_⟩
  · exact (hsound.blockHashes (settled_of_done hdone)).2.2
  · exact (hsound.digest hdone extra).2.2

/-- One byte in one block, hashed as it is. -/
def oneByte : Layout (List UInt8) Unit (List UInt8) where
  size := 1
  level := 0
  tree := {
    leaf := 1
    leaf_pos := Nat.one_pos
    leafValue := fun _ data => data
    leafRoot := id
    node := (· ++ ·)
    nodeRoot := (· ++ ·) }
  other _ := id

/-- A byte written over the one found. -/
theorem digest_of_one_byte : ∃ s, (patientWriter oneByte).Reachable s ∧
    (s.digest oneByte none).2.blake3 = oneByte.tree.hash (s.contents 0 1) := by
  have hstart : (patientWriter oneByte).Reachable (State.start oneByte (fun _ => 7) [] none) :=
    .init ⟨_, _, _, rfl⟩
  have hwrite := hstart.step ⟨⟨.write 0 [5], rfl⟩, by decide⟩
  have hland := hwrite.step ⟨⟨.land 0 0, rfl⟩, by decide⟩
  have hrecord := hland.step ⟨⟨.record 0, rfl⟩, by decide⟩
  have hkeep := hrecord.step ⟨⟨.keep 0 true, rfl⟩, by decide⟩
  exact ⟨_, hkeep, ((digest_is_the_files oneByte _ hkeep).2.2 rfl rfl none).1⟩

/-! ## Versions that come around

A hash is taken of the byte found, and before it is kept the byte is written
`2 ^ 32` times. -/

/-- The prefix hasher has read the byte found, a zero; since then the byte was
written `n` times. -/
structure Overtaken (n : Nat) (s : State (List UInt8) Unit) : Prop where
  written : s.written = [(0, 1)]
  version : (s.blocks 0).version = n
  head : (s.blocks 0).head = none
  file : 0 < n → s.file 0 = 1
  done : s.done = true
  follower : s.follower = some ⟨(), [], .reading 1 [(0, 0)] (Function.update (fun _ => none) 0 (some 0))⟩

/-- A call that writes a one. -/
def writesOne (phase : WritePhase) : Write := ⟨0, [1], phase⟩

/-- A one has landed. -/
def landedOne (s : State (List UInt8) Unit) : State (List UInt8) Unit :=
  { s with
    file := Function.update s.file 0 1
    writes := s.writes ++ [writesOne (.landing {0})] }

/-- The call that landed it is recorded. -/
def recordedOne (n : Nat) (s : State (List UInt8) Unit) : State (List UInt8) Unit :=
  { landedOne s with
    written := [(0, 1)]
    refollow := s.refollow || decide (0 < s.followed)
    blocks := fun i =>
      if oneByte.touches (writesOne (.landing {0})) i then
        ⟨(s.blocks i).version + 1, none, covers [(0, 1)] (oneByte.start i) (oneByte.stop i), none⟩
      else s.blocks i
    writes := s.writes ++ [writesOne (.hashing [⟨0, n + 1, true, none⟩] fun _ => none)] }

/-- The call hashed its block and is over. -/
def keptOne (n : Nat) (s : State (List UInt8) Unit) : State (List UInt8) Unit :=
  let w := writesOne (.hashing [⟨0, n + 1, true, none⟩] fun _ => none)
  { recordedOne n s with
    blocks := Function.update (recordedOne n s).blocks 0
      (Touched.kept oneByte ⟨0, n + 1, true, none⟩ w (fun _ => none) true ((recordedOne n s).blocks 0))
    writes := s.writes ++ [writesOne (.hashing [] fun _ => none)] }

theorem set_snoc (ws : List Write) (w w' : Write) : (ws ++ [w]).set ws.length w' = ws ++ [w'] := by
  rw [List.set_append_right _ _ le_rfl, Nat.sub_self]
  rfl

theorem Overtaken.record {n : Nat} {s : State (List UInt8) Unit} (h : Overtaken n s) :
    State.step oneByte (landedOne s) (.record s.writes.length) = some (recordedOne n s) := by
  have htouched : State.touched oneByte (landedOne s) (writesOne (.landing {0})) [(0, 1)] =
      [⟨0, n + 1, true, none⟩] := by
    rw [← h.version, ← h.head]
    rfl
  have hadd : add s.written (0, 1) = [(0, 1)] := by
    rw [h.written]
    rfl
  have hmoved : (landedOne s).recorded oneByte s.writes.length (writesOne (.landing {0})) =
      { landedOne s with
        written := add s.written (0, 1)
        refollow := s.refollow || decide (0 < s.followed)
        blocks := fun i =>
          if oneByte.touches (writesOne (.landing {0})) i then
            ⟨(s.blocks i).version + 1, none, covers (add s.written (0, 1)) (oneByte.start i) (oneByte.stop i), none⟩
          else s.blocks i
        writes := (s.writes ++ [writesOne (.landing {0})]).set s.writes.length (writesOne (.hashing
          (State.touched oneByte (landedOne s) (writesOne (.landing {0})) (add s.written (0, 1))) fun _ => none)) } :=
    rfl
  rw [hadd, htouched, set_snoc] at hmoved
  simp only [State.step, landedOne, List.getElem?_concat_length]
  exact (if_pos (by decide)).trans (congrArg some hmoved)

theorem Overtaken.write_again {n : Nat} {s : State (List UInt8) Unit} (h : Overtaken n s)
    (hreach : (writer oneByte).toTSys.Reachable s) :
    (writer oneByte).toTSys.Reachable (keptOne n s) ∧ Overtaken (n + 1) (keptOne n s) := by
  have hwrite : State.step oneByte s (.write 0 [1]) =
      some { s with writes := s.writes ++ [writesOne (.landing ∅)] } := by
    refine if_pos ⟨le_rfl, fun v hv hrun => ?_⟩
    have hnot := List.all_eq_true.mp h.done v hv
    rw [hrun] at hnot
    exact Bool.noConfusion hnot
  have hland : State.step oneByte { s with writes := s.writes ++ [writesOne (.landing ∅)] }
      (.land s.writes.length 0) = some (landedOne s) := by
    simp only [State.step, List.getElem?_concat_length, writesOne, set_snoc]
    rfl
  have hkeep : State.step oneByte (recordedOne n s) (.keep s.writes.length true) = some (keptOne n s) := by
    simp only [State.step, recordedOne, List.getElem?_concat_length, writesOne, set_snoc]
    exact if_pos fun _ => rfl
  refine ⟨next_reachable (next_reachable (next_reachable (next_reachable hreach hwrite) hland) h.record) hkeep, rfl, ?_, ?_, ?_, ?_, h.follower⟩
  · show (Touched.kept oneByte _ _ _ true ((recordedOne n s).blocks 0)).version = n + 1
    rw [kept_version]
    show (s.blocks 0).version + 1 = n + 1
    rw [h.version]
  · show (Touched.kept oneByte _ _ _ true ((recordedOne n s).blocks 0)).head = none
    rw [kept_eq]
    split <;> rfl
  · intro _
    show Function.update s.file 0 1 0 = 1
    exact Function.update_self _ _ _
  · show (s.writes ++ [_]).all _ = true
    rw [List.all_append, Bool.and_eq_true]
    exact ⟨h.done, rfl⟩

/-- However often the byte is written over. -/
theorem reachable_overtaken (n : Nat) : ∃ s, (writer oneByte).toTSys.Reachable s ∧ Overtaken n s := by
  induction n with
  | zero =>
    have hstart : (writer oneByte).toTSys.Reachable (State.start oneByte (fun _ => 0) [(0, 0)] (some ())) :=
      .init ⟨_, _, _, rfl⟩
    have hlook := hstart.step ⟨.look, rfl⟩
    exact ⟨_, hlook.step ⟨.followRead 0, rfl⟩, rfl, rfl, rfl, fun h => (Nat.lt_irrefl 0 h).elim, rfl, rfl⟩
  | succ n ih =>
    obtain ⟨s, hreach, h⟩ := ih
    exact ⟨_, h.write_again hreach⟩

/-- Versions come around while the byte found is being hashed: its hash is
kept, though the byte is another one by then, and the digest is not the file's. -/
theorem stale_hash_kept :
    ¬ ∀ s, (writer oneByte).toTSys.Reachable s → s.done = true → s.joinable = true → ∀ extra,
      (s.digest oneByte extra).2.blake3 = oneByte.tree.hash (s.contents 0 oneByte.size) := by
  intro hall
  obtain ⟨s, hreach, h⟩ := reachable_overtaken (2 ^ 32)
  have hkept : State.step oneByte s .followKeep = some
      { s with
        follower := some ⟨(), [], .reading 1 [] (Function.update (fun _ => none) 0 (some 0))⟩
        blocks := Function.update s.blocks 0 { s.blocks 0 with hash := some [0] } } := by
    have hsame : sameVersion (s.blocks 0).version 0 = true := by
      rw [h.version]
      rfl
    simp only [State.step, h.follower]
    refine (if_pos rfl).trans (congrArg some ?_)
    exact if_pos hsame
  have hon : State.step oneByte { s with
        follower := some ⟨(), [], .reading 1 [] (Function.update (fun _ => none) 0 (some 0))⟩
        blocks := Function.update s.blocks 0 { s.blocks 0 with hash := some [0] } } .followOn = some
      { s with
        follower := some ⟨(), [0], .looking⟩
        blocks := Function.update s.blocks 0 { s.blocks 0 with hash := some [0] } } := rfl
  have hreturned : State.step oneByte { s with
        follower := some ⟨(), [0], .looking⟩
        blocks := Function.update s.blocks 0 { s.blocks 0 with hash := some [0] } } .look = some
      { s with
        follower := some ⟨(), [0], .returned⟩
        blocks := Function.update s.blocks 0 { s.blocks 0 with hash := some [0] } } := if_pos (.inr le_rfl)
  have hwrong := hall _ (next_reachable (next_reachable (next_reachable hreach hkept) hon) hreturned) h.done rfl none
  have hone : ([0] : List UInt8) = [s.file 0] := hwrong
  rw [h.file (Nat.two_pow_pos _)] at hone
  exact absurd hone (by decide)

end Storage

end Hyperfetch
