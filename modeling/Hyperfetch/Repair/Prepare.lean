import Hyperfetch.RangeAlgebra
import Hyperfetch.Text
import Hyperfetch.Weft.Durable

/-!
# Setting up a repair (`prepare_repair`)

A repair works in `<final>.part`, where a damaged file at its final name is moved
first. The state saved beside it records as complete what the state found beside
the file recorded, or everything if there was none, less what the caller found
broken and what lies past the file's end (`covered_trusted`).

Each operation on the disk may fail (`Step`). Until the state is saved nothing has
changed; after that the file may have been moved, and the state names no byte that
is not in the file (`sound_prepareRepair`).

Parameter: the ETag the history holds for the file. Left out: the name check after
the claim, which no step of this process undoes, and temporary files.
-/

namespace Hyperfetch.Repair

open Weft

structure DownloadState where
  fileName : Text
  fileSize : Nat
  baseChunkSize : Nat
  completedRanges : List ByteRange
  mirrors : List Text
  etag : Option Text
  lastModified : Option Text
  blake3Root : Option (List UInt8)
  deriving DecidableEq

inductive StateFile
  | absent
  /-- It is no state (corrupted, or from another version). -/
  | unreadable
  | saved (state : DownloadState)
  deriving DecidableEq

inductive Name
  | final
  | part
  deriving DecidableEq

/-- What is under a download's two names, and the state file beside each. -/
structure Disk where
  final : Option (List UInt8)
  part : Option (List UInt8)
  finalState : StateFile
  partState : StateFile
  deriving DecidableEq

namespace Disk

def file (disk : Disk) : Name → Option (List UInt8)
  | .final => disk.final
  | .part => disk.part

def state (disk : Disk) : Name → StateFile
  | .final => disk.finalState
  | .part => disk.partState

/-- The bytes at a name, if any. -/
def bytes (disk : Disk) (name : Name) : List UInt8 := (disk.file name).getD []

/-- `resolve_target`: the file that holds the data. -/
def resolveTarget (disk : Disk) : Name → Name
  | .part => .part
  | .final => if disk.final.isNone && disk.part.isSome then .part else .final

/-- The ranges of a state that was read are in order, as `TryFrom<RawByteRange>` checks. -/
def Readable (disk : Disk) : Prop :=
  ∀ name state, disk.state name = .saved state → ∀ r ∈ state.completedRanges, r.Valid

end Disk

/-- What a repair is asked for. -/
structure Order where
  fileName : Name → Text
  totalSize : Nat
  missingRanges : List ByteRange
  urls : List Text
  /-- The ETag recorded for a file of this size. -/
  recordedEtag : Option Text
  size_le : totalSize ≤ u64Max
  missing_valid : ∀ r ∈ missingRanges, r.Valid

/-- What may fail. -/
inductive Step
  | claim
  /-- A download holds the target. -/
  | held
  | metadata
  | saveState
  | move
  | removePartState
  | removeFinalState
  | openFile
  | setLen
  | reserve
  deriving DecidableEq

inductive PrepareError
  | claim
  | stillDownloading
  | cannotRead
  | larger
  | recordsAnotherSize (recorded : Nat)
  | saveState
  | partExists
  | move
  | openFile
  deriving DecidableEq

/-- `DownloadOptions::default().base_chunk_size`. -/
def defaultChunkSize : Nat := 4 * 1024 * 1024

/-- Without bookkeeping all of the file is taken as present. -/
def freshState (order : Order) (target : Name) : DownloadState where
  fileName := order.fileName target
  fileSize := order.totalSize
  baseChunkSize := defaultChunkSize
  completedRanges := (ByteRange.fromLen 0 order.totalSize).toOption.toList
  mirrors := order.urls
  etag := order.recordedEtag
  lastModified := none
  blake3Root := none

/-- The state beside the target, or a fresh one. -/
def recordedState (disk : Disk) (order : Order) (target : Name) : Except PrepareError DownloadState :=
  match disk.state target with
  | .saved state =>
    if state.fileSize = order.totalSize then .ok state else .error (.recordsAnotherSize state.fileSize)
  | _ => .ok (freshState order target)

/-- What is not vouched for. -/
def untrusted (order : Order) (len : Nat) (state : DownloadState) : List ByteRange :=
  computeGaps order.totalSize state.completedRanges ++ order.missingRanges ++
    (ByteRange.new len (order.totalSize - 1)).toOption.toList

def addMirror (mirrors : List Text) (url : Text) : List Text := if mirrors.contains url then mirrors else mirrors ++ [url]

/-- The state less what is not vouched for, with the mirrors of this repair. -/
def trusted (order : Order) (len : Nat) (state : DownloadState) : DownloadState :=
  { state with
    completedRanges := computeGaps order.totalSize (mergeRanges (untrusted order len state))
    mirrors := order.urls.foldl addMirror state.mirrors }

section

variable (fails : Step → Bool)

/-- `DiskWriter::open_or_create` of the `.part`. -/
def openPart (order : Order) (disk : Disk) (state : DownloadState) : Except PrepareError DownloadState × Disk :=
  if fails .openFile then (.error .openFile, disk)
  else
    let opened := { disk with part := some (disk.bytes .part) }
    if fails .setLen then (.error .openFile, opened)
    else
      let sized := { opened with part := some (setLen 0 order.totalSize (disk.bytes .part)) }
      if fails .reserve then (.error .openFile, sized) else (.ok state, sized)

/-- Once the state is saved: the file at its final name becomes the `.part`. -/
def moveFinal (order : Order) (disk : Disk) (state : DownloadState) : Except PrepareError DownloadState × Disk :=
  if disk.final.isSome && fails .move then
    (.error .move, if fails .removePartState then disk else { disk with partState := .absent })
  else
    let moved := { disk with final := none, part := disk.final }
    openPart fails order (if fails .removeFinalState then moved else { moved with finalState := .absent }) state

/-- `prepare_repair`: the state the repair goes on with, and the disk. -/
def prepareRepair (order : Order) (disk : Disk) (named : Name) : Except PrepareError DownloadState × Disk :=
  if fails .claim then (.error .claim, disk)
  else if fails .held then (.error .stillDownloading, disk)
  else
    let target := disk.resolveTarget named
    if fails .metadata then (.error .cannotRead, disk)
    else
      let len := (disk.bytes target).length
      if len > order.totalSize then (.error .larger, disk)
      else
        match recordedState disk order target with
        | .error e => (.error e, disk)
        | .ok recorded =>
          let state := trusted order len recorded
          let saved := { disk with partState := .saved state }
          if target = .part then
            if fails .saveState then (.error .saveState, disk) else openPart fails order saved state
          else if disk.part.isSome then (.error .partExists, disk)
          else if fails .saveState then (.error .saveState, disk)
          else moveFinal fails order saved state

end

/-! ## What is vouched for -/

/-- What the state beside the target recorded; all of the file if it is none. -/
def Vouched (disk : Disk) (order : Order) (target : Name) (b : Nat) : Prop :=
  b < order.totalSize ∧
    match disk.state target with
    | .saved state => Covered state.completedRanges b
    | _ => True

/-- A state that vouches for exactly what was recorded, is not broken and is in the file. -/
structure Exact (disk : Disk) (order : Order) (target : Name) (state : DownloadState) : Prop where
  valid : ∀ r ∈ state.completedRanges, r.Valid
  covered : ∀ b, Covered state.completedRanges b ↔
    Vouched disk order target b ∧ ¬Covered order.missingRanges b ∧ b < (disk.bytes target).length

theorem fits_of_valid {rs : List ByteRange} (h : ∀ r ∈ rs, r.Valid) : ∀ r ∈ rs, r.Fits :=
  fun r hr => ⟨(h r hr).ordered.trans (h r hr).bounded, (h r hr).bounded⟩

/-- The bytes from `first` to the end of a file. -/
theorem covered_new {first total b : Nat} (hb : b < total) :
    Covered (ByteRange.new first (total - 1)).toOption.toList b ↔ first ≤ b := by
  unfold ByteRange.new
  split
  · simp only [Except.toOption, Option.toList, Covered, List.not_mem_nil, false_and, exists_false, false_iff]
    omega
  · simp only [Except.toOption, Option.toList, Covered, List.mem_singleton, exists_eq_left]
    omega

theorem valid_new {first last : Nat} (hlast : last ≤ u64Max) :
    ∀ r ∈ (ByteRange.new first last).toOption.toList, r.Valid := by
  unfold ByteRange.new
  split
  · intro r hr
    simp [Except.toOption] at hr
  next hle =>
    intro r hr
    obtain rfl : r = ⟨first, last⟩ := by simpa [Except.toOption] using hr
    exact ⟨Nat.not_lt.mp hle, hlast⟩

theorem valid_computeGaps {total : Nat} {rs : List ByteRange} (htotal : total ≤ u64Max) (h : ∀ r ∈ rs, r.Valid) :
    ∀ r ∈ computeGaps total rs, r.Valid := by
  intro r hr
  obtain ⟨hordered, hin⟩ := (computeGaps_spec htotal h).1 r hr
  exact ⟨hordered, hin.le.trans htotal⟩

theorem valid_untrusted (order : Order) (len : Nat) {state : DownloadState} (h : ∀ r ∈ state.completedRanges, r.Valid) :
    ∀ r ∈ untrusted order len state, r.Valid := by
  intro r hr
  rw [untrusted, List.mem_append, List.mem_append] at hr
  rcases hr with (hr | hr) | hr
  · exact valid_computeGaps order.size_le h r hr
  · exact order.missing_valid r hr
  · exact valid_new ((Nat.sub_le _ _).trans order.size_le) r hr

/-- What is trusted was recorded, is not broken and is in the file. -/
theorem covered_trusted (order : Order) (len : Nat) {state : DownloadState}
    (h : ∀ r ∈ state.completedRanges, r.Valid) (b : Nat) :
    Covered (trusted order len state).completedRanges b ↔
      (b < order.totalSize ∧ Covered state.completedRanges b) ∧ ¬Covered order.missingRanges b ∧ b < len := by
  have huntrusted := valid_untrusted order len h
  have hmerged := (mergeRanges_spec huntrusted).1.valid
  rw [trusted, covered_computeGaps order.size_le (fits_of_valid hmerged), covered_mergeRanges (fits_of_valid huntrusted),
    untrusted, covered_append, covered_append, covered_computeGaps order.size_le (fits_of_valid h)]
  by_cases hb : b < order.totalSize
  · rw [covered_new hb]
    have hnot := @Classical.not_not (Covered state.completedRanges b)
    constructor
    · rintro ⟨-, hno⟩
      rw [not_or, not_or, not_and, hnot] at hno
      exact ⟨⟨hb, hno.1.1 hb⟩, hno.1.2, Nat.not_le.mp hno.2⟩
    · rintro ⟨⟨-, hcovered⟩, hmissing, hlen⟩
      refine ⟨hb, ?_⟩
      rw [not_or, not_or, not_and, hnot]
      exact ⟨⟨fun _ => hcovered, hmissing⟩, Nat.not_le.mpr hlen⟩
  · simp [hb]

theorem recordedState_ok {disk : Disk} {order : Order} {target : Name} {recorded : DownloadState}
    (hdisk : disk.Readable) (h : recordedState disk order target = .ok recorded) :
    (∀ r ∈ recorded.completedRanges, r.Valid) ∧
      ∀ b, b < order.totalSize ∧ Covered recorded.completedRanges b ↔ Vouched disk order target b := by
  unfold recordedState at h
  unfold Vouched
  cases hstate : disk.state target with
  | saved state =>
    rw [hstate] at h
    dsimp only at h
    split at h
    · cases h
      exact ⟨hdisk target _ hstate, fun b => Iff.rfl⟩
    · cases h
  | absent | unreadable =>
    rw [hstate] at h
    cases h
    have hall : (ByteRange.fromLen 0 order.totalSize).toOption.toList =
        if order.totalSize = 0 then [] else [⟨0, order.totalSize - 1⟩] := by
      have hsize := order.size_le
      unfold ByteRange.fromLen
      split
      · rfl
      · rw [if_neg (by omega), Nat.zero_add]
        rfl
    refine ⟨fun r hr => ?_, fun b => ?_⟩
    · have hr : r ∈ (ByteRange.fromLen 0 order.totalSize).toOption.toList := hr
      rw [hall] at hr
      split at hr
      · simp at hr
      · rw [List.mem_singleton.mp hr]
        exact ⟨Nat.zero_le _, (Nat.sub_le _ _).trans order.size_le⟩
    · refine and_congr_right fun hb => ?_
      show Covered (ByteRange.fromLen 0 order.totalSize).toOption.toList b ↔ True
      rw [hall, if_neg (by omega), iff_true]
      exact ⟨⟨0, order.totalSize - 1⟩, List.mem_singleton_self _, Nat.zero_le b, Nat.le_sub_one_of_lt hb⟩

theorem exact_trusted {disk : Disk} {order : Order} {target : Name} {recorded : DownloadState}
    (hdisk : disk.Readable) (h : recordedState disk order target = .ok recorded) :
    Exact disk order target (trusted order (disk.bytes target).length recorded) := by
  obtain ⟨hvalid, hvouched⟩ := recordedState_ok hdisk h
  refine ⟨?_, fun b => ?_⟩
  · have huntrusted := valid_untrusted order (disk.bytes target).length hvalid
    exact valid_computeGaps order.size_le (mergeRanges_spec huntrusted).1.valid
  · rw [covered_trusted order _ hvalid, hvouched]

/-! ## What a repair starts from -/

/-- The bytes of a file, filled up with zeros. -/
def Padded (bytes : List UInt8) (file : Option (List UInt8)) : Prop :=
  ∃ n, file.getD [] = bytes ++ List.replicate n 0

/-- What a repair that was set up goes on from. -/
structure Ready (disk : Disk) (order : Order) (target : Name) (state : DownloadState) (after : Disk) : Prop where
  exact : Exact disk order target state
  saved : after.partState = .saved state
  part : after.part = some (setLen 0 order.totalSize (disk.bytes target))
  final : after.final = if target = .final then none else disk.final

/-- What a repair that could not be set up leaves. -/
def Left (disk : Disk) (order : Order) (target : Name) (after : Disk) : PrepareError → Prop
  | .move =>
    after.final = disk.final ∧ after.part = disk.part ∧ after.finalState = disk.finalState ∧
      (after.partState = .absent ∨ ∃ state, after.partState = .saved state ∧ Exact disk order target state)
  | .openFile =>
    (∃ state, after.partState = .saved state ∧ Exact disk order target state) ∧
      Padded (disk.bytes target) after.part ∧ after.final = if target = .final then none else disk.final
  | _ => after = disk

/-- How setting up a repair may end. -/
def Sound (disk : Disk) (order : Order) (target : Name) (result : Except PrepareError DownloadState × Disk) : Prop :=
  match result.1 with
  | .ok state => Ready disk order target state result.2
  | .error e => Left disk order target result.2 e

theorem padded_self (file : Option (List UInt8)) : Padded (file.getD []) file := ⟨0, by simp⟩

theorem padded_setLen {bytes : List UInt8} {n : Nat} (h : bytes.length ≤ n) : Padded bytes (some (setLen 0 n bytes)) :=
  ⟨n - bytes.length, by simp [setLen, List.take_of_length_le h]⟩

/-- Once the state is saved and the file is the `.part`, only opening it can fail. -/
theorem sound_openPart (fails : Step → Bool) {disk moved : Disk} {order : Order} {target : Name} {state : DownloadState}
    (hexact : Exact disk order target state) (hlen : (disk.bytes target).length ≤ order.totalSize)
    (hsaved : moved.partState = .saved state) (hpart : moved.bytes .part = disk.bytes target)
    (hfinal : moved.final = if target = .final then none else disk.final) :
    Sound disk order target (openPart fails order moved state) := by
  have hmoved : Padded (disk.bytes target) moved.part := by
    rw [← hpart]
    exact padded_self moved.part
  unfold openPart
  by_cases hopen : fails .openFile = true
  · rw [if_pos hopen]
    exact ⟨⟨state, hsaved, hexact⟩, hmoved, hfinal⟩
  · rw [if_neg hopen]
    by_cases hset : fails .setLen = true
    · simp only [hset, if_true, hpart]
      exact ⟨⟨state, hsaved, hexact⟩, padded_self (some _), hfinal⟩
    · simp only [hset, hpart]
      by_cases hreserve : fails .reserve = true
      · simp only [hreserve, if_true]
        exact ⟨⟨state, hsaved, hexact⟩, padded_setLen hlen, hfinal⟩
      · simp only [hreserve]
        exact ⟨hexact, hsaved, rfl, hfinal⟩

theorem sound_moveFinal (fails : Step → Bool) {disk : Disk} {order : Order} {state : DownloadState}
    (hexact : Exact disk order .final state) (hlen : (disk.bytes .final).length ≤ order.totalSize) :
    Sound disk order .final (moveFinal fails order { disk with partState := .saved state } state) := by
  unfold moveFinal
  split
  · refine ⟨?_, ?_, ?_, ?_⟩
    all_goals split
    all_goals first | rfl | skip
    · exact Or.inr ⟨state, rfl, hexact⟩
    · exact Or.inl rfl
  · apply sound_openPart fails hexact hlen
    all_goals split
    all_goals rfl

/-- **What setting up a repair does**: it vouches for exactly the bytes it may, and
a failure before the state is saved changes nothing. -/
theorem sound_prepareRepair (fails : Step → Bool) (order : Order) {disk : Disk} (hdisk : disk.Readable) (named : Name) :
    Sound disk order (disk.resolveTarget named) (prepareRepair fails order disk named) := by
  unfold prepareRepair
  by_cases hclaim : fails .claim = true
  · rw [if_pos hclaim]
    rfl
  rw [if_neg hclaim]
  by_cases hheld : fails .held = true
  · rw [if_pos hheld]
    rfl
  rw [if_neg hheld]
  dsimp only
  by_cases hread : fails .metadata = true
  · rw [if_pos hread]
    rfl
  rw [if_neg hread]
  split
  · rfl
  next hlen =>
    split
    next e herror =>
      -- only a record of another size is an error here
      unfold recordedState at herror
      split at herror
      · split at herror
        · cases herror
        · cases herror
          rfl
      · cases herror
    next recorded hrecorded =>
      have hexact := exact_trusted hdisk hrecorded
      have hlen := Nat.not_lt.mp hlen
      split
      next htarget =>
        rw [htarget] at hexact hlen ⊢
        by_cases hsave : fails .saveState = true
        · rw [if_pos hsave]
          rfl
        · rw [if_neg hsave]
          exact sound_openPart fails hexact hlen rfl rfl rfl
      next htarget =>
        have htarget : disk.resolveTarget named = .final := by
          cases h : disk.resolveTarget named with
          | final => rfl
          | part => exact absurd h htarget
        rw [htarget] at hexact hlen ⊢
        split
        · rfl
        · split
          · rfl
          · exact sound_moveFinal fails hexact hlen

end Hyperfetch.Repair
