import Hyperfetch.Hls.Disguise
import Hyperfetch.Weft.Checked

/-!
# Both cuts of a disguised segment (`strip_disguise`, `stripDisguise` of `bridge.js`)

The app and the extension each search for the run of packets and back for the last packet.
Read for read neither looks outside the data, and both keep what `stripDisguise` keeps
(`strip_alike`). A read outside is a fault here, also where JavaScript would go on with
`undefined`.
-/

namespace Hyperfetch.Hls.Vod

open Weft Checked

/-! ## The app's -/

/-- The search back for the last packet, of so many. -/
def lastRead (data : List UInt8) (start : Nat) : Nat → Checked Empty (Option Nat)
  | 0 => .ok none
  | k + 1 => do
    let byte ← index data (start + k * packet)
    if byte = 0x47 then .ok (some k) else lastRead data start k

/-- `strip_disguise`, read for read. -/
def stripRead (data : List UInt8) : Checked Empty (List UInt8) :=
  match runStart data with
  | none => .ok data
  | some start => do
    let left ← sub data.length start
    let last ← lastRead data start (left / packet)
    let cut := data.take (start + (last.getD 0 + 1) * packet)
    slice cut start cut.length

/-! ## The extension's -/

namespace Bridge

/-- Whether the bytes at these places behind `i` are 0x47, up to one that is not. -/
def runAt (data : List UInt8) (i : Nat) : List Nat → Checked Empty Bool
  | [] => .ok true
  | place :: more => do
    let byte ← index data (i + place)
    if byte = 0x47 then runAt data i more else .ok false

def run (data : List UInt8) (i : Nat) : Checked Empty Bool := runAt data i [0, 188, 376, 564, 752]

/-- The loop for `start`; out of turns it would go on for ever. -/
def startFrom (data : List UInt8) : Nat → Nat → Checked Empty Nat
  | 0, _ => fault
  | turns + 1, start =>
    if start + 4 * 188 < data.length then do
      if ← run data start then .ok start else startFrom data turns (start + 1)
    else .ok start

/-- The loop for `end`. -/
def endFrom (data : List UInt8) : Nat → Nat → Checked Empty Nat
  | 0, _ => fault
  | turns + 1, end_ => do
    let at_ ← sub end_ 188
    let byte ← index data at_
    if byte ≠ 0x47 then endFrom data turns at_ else .ok end_

/-- `stripDisguise`. -/
def stripDisguise (data : List UInt8) : Checked Empty (List UInt8) := do
  let start ← startFrom data (data.length + 1) 0
  if data.length ≤ start + 4 * 188 then .ok data
  else do
    let end_ ← endFrom data (data.length + 1) (start + (data.length - start) / 188 * 188)
    slice data start end_

end Bridge

/-! ## The run -/

variable {data : List UInt8} {start : Nat}

/-- Five bytes 188 apart are 0x47 here, and nowhere before. -/
structure FirstRun (data : List UInt8) (start : Nat) : Prop where
  run : ∀ k < 5, data[start + k * packet]? = some 0x47
  first : ∀ i < start, ¬ ∀ k < 5, data[i + k * packet]? = some 0x47

theorem packetsAt_iff {i : Nat} : packetsAt data i = true ↔ ∀ k < 5, data[i + k * packet]? = some 0x47 := by
  simp [packetsAt]

theorem runStart_eq_some : runStart data = some start ↔ FirstRun data start := by
  rw [runStart, List.find?_range_eq_some]
  constructor
  · rintro ⟨hrun, hlt, hfirst⟩
    refine ⟨packetsAt_iff.mp hrun, fun i hi h => ?_⟩
    have hnot := hfirst i hi
    rw [packetsAt_iff.mpr h] at hnot
    cases hnot
  · rintro ⟨hrun, hfirst⟩
    have hlt := (List.getElem?_eq_some_iff.mp (hrun 0 (by decide))).1
    refine ⟨packetsAt_iff.mpr hrun, by rw [List.mem_range]; omega, fun i hi => ?_⟩
    rw [Bool.not_eq_true']
    exact Bool.eq_false_iff.mpr fun h => hfirst i hi (packetsAt_iff.mp h)

theorem FirstRun.room (h : FirstRun data start) : start + 4 * packet < data.length :=
  (List.getElem?_eq_some_iff.mp (h.run 4 (by decide))).1

/-! ## The search back -/

/-- The last packet of so many from the start on. -/
def lastOf (data : List UInt8) (start count : Nat) : Option Nat :=
  (List.range count).reverse.find? fun k => data[start + k * packet]? == some 0x47

theorem lastOf_succ (data : List UInt8) (start k : Nat) :
    lastOf data start (k + 1) = if data[start + k * packet]? = some 0x47 then some k else lastOf data start k := by
  rw [lastOf, List.range_succ, List.reverse_append, List.reverse_singleton, List.singleton_append, List.find?_cons, ← lastOf]
  by_cases h : data[start + k * packet]? = some 0x47
  · rw [if_pos h, h]
    rfl
  · have hbeq : (data[start + k * packet]? == some 0x47) = false := beq_eq_false_iff_ne.mpr h
    rw [if_neg h, hbeq]

theorem exists_lastOf (hstart : data[start]? = some 0x47) {count : Nat} (hpos : 0 < count) :
    ∃ last, lastOf data start count = some last := by
  induction count with
  | zero => exact absurd hpos (Nat.lt_irrefl 0)
  | succ k ih =>
    rw [lastOf_succ]
    split
    next => exact ⟨k, rfl⟩
    next hnot =>
      rcases Nat.eq_zero_or_pos k with rfl | hk
      · rw [Nat.zero_mul, Nat.add_zero] at hnot
        exact absurd hstart hnot
      · exact ih hk

theorem lastOf_eq_some {count last : Nat} (h : lastOf data start count = some last) :
    last < count ∧ data[start + last * packet]? = some 0x47 := by
  have hmem := List.mem_of_find?_eq_some h
  rw [List.mem_reverse, List.mem_range] at hmem
  exact ⟨hmem, by simpa using List.find?_some h⟩

theorem lastRead_eq {count : Nat} (hin : start + count * packet ≤ data.length) :
    lastRead data start count = .ok (lastOf data start count) := by
  induction count with
  | zero => rfl
  | succ k ih =>
    rw [Nat.succ_mul] at hin
    have hpacket : packet = 188 := rfl
    obtain ⟨byte, hbyte⟩ : ∃ byte, data[start + k * packet]? = some byte :=
      ⟨_, List.getElem?_eq_getElem (by omega)⟩
    rw [lastRead, index_eq hbyte, ok_bind, lastOf_succ, hbyte, ih (by omega)]
    simp only [Option.some.injEq]
    split <;> rfl

theorem endFrom_eq {turns count last : Nat} (hturns : count < turns) (hin : start + count * packet ≤ data.length)
    (hlast : lastOf data start count = some last) :
    Bridge.endFrom data turns (start + count * packet) = .ok (start + (last + 1) * packet) := by
  have hpacket : packet = 188 := rfl
  induction count generalizing turns with
  | zero => cases hlast
  | succ k ih =>
    obtain ⟨turns, rfl⟩ := Nat.exists_eq_add_one_of_ne_zero (Nat.ne_of_gt (Nat.zero_lt_of_lt hturns))
    have hmul : (k + 1) * packet = k * packet + packet := Nat.succ_mul k packet
    have hback : start + (k + 1) * packet - 188 = start + k * packet := by omega
    obtain ⟨byte, hbyte⟩ : ∃ byte, data[start + k * packet]? = some byte :=
      ⟨_, List.getElem?_eq_getElem (by omega)⟩
    rw [lastOf_succ, hbyte] at hlast
    rw [Bridge.endFrom, sub_eq (by omega), ok_bind, hback, index_eq hbyte, ok_bind]
    by_cases hsync : byte = 0x47
    · rw [if_pos (congrArg some hsync)] at hlast
      rw [if_neg (not_not.mpr hsync), Option.some.inj hlast]
    · rw [if_neg (by simpa using hsync)] at hlast
      rw [if_pos hsync]
      exact ih (by omega) (by omega) hlast

/-! ## The search for the run -/

theorem runAt_eq {i : Nat} {places : List Nat} (hin : ∀ place ∈ places, i + place < data.length) :
    Bridge.runAt data i places = .ok (places.all fun place => data[i + place]? == some 0x47) := by
  induction places with
  | nil => rfl
  | cons place places ih =>
    obtain ⟨hplace, hrest⟩ := List.forall_mem_cons.mp hin
    have hbyte := List.getElem?_eq_getElem hplace
    rw [Bridge.runAt, index_eq hbyte, ok_bind, ih hrest, List.all_cons, hbyte]
    by_cases hsync : data[i + place] = 0x47 <;> simp [hsync]

theorem run_eq {i : Nat} (hin : i + 4 * packet < data.length) : Bridge.run data i = .ok (packetsAt data i) := by
  have hpacket : packet = 188 := rfl
  rw [Bridge.run, runAt_eq (by simp; omega)]
  rfl

/-- The loop stops at the run, or where none can begin any more. -/
theorem startFrom_eq {turns i : Nat} (hturns : data.length < turns + i) (hbefore : ∀ j < i, packetsAt data j = false) (hpos : 0 < turns) :
    ∃ start, Bridge.startFrom data turns i = .ok start ∧
      (FirstRun data start ∨ data.length ≤ start + 4 * 188 ∧ ∀ j, packetsAt data j = false) := by
  induction turns generalizing i with
  | zero => exact absurd hpos (Nat.lt_irrefl 0)
  | succ turns ih =>
    have hpacket : packet = 188 := rfl
    rw [Bridge.startFrom]
    split
    next hroom =>
      rw [run_eq hroom, ok_bind]
      cases hrun : packetsAt data i with
      | true =>
        refine ⟨i, rfl, .inl ⟨packetsAt_iff.mp hrun, fun j hj h => ?_⟩⟩
        exact absurd (packetsAt_iff.mpr h) (by rw [hbefore j hj]; exact Bool.false_ne_true)
      | false =>
        refine ih (by omega) (fun j hj => ?_) (by omega)
        rcases Nat.lt_succ_iff_lt_or_eq.mp hj with hj | rfl
        · exact hbefore j hj
        · exact hrun
    next hroom =>
      refine ⟨i, rfl, .inr ⟨Nat.not_lt.mp hroom, fun j => ?_⟩⟩
      rcases Nat.lt_or_ge j i with hj | hj
      · exact hbefore j hj
      · refine Bool.eq_false_iff.mpr fun h => ?_
        have hlast := (List.getElem?_eq_some_iff.mp (packetsAt_iff.mp h 4 (by decide))).1
        omega

/-! ## What both keep -/

/-- What is kept behind a run of packets. -/
theorem stripDisguise_eq {last : Nat} (hrun : FirstRun data start)
    (hlast : lastOf data start ((data.length - start) / packet) = some last) :
    stripDisguise data = (data.take (start + (last + 1) * packet)).drop start := by
  have hkept : kept data = (start, start + (last + 1) * packet) := by
    rw [kept, runStart_eq_some.mpr hrun]
    dsimp only
    rw [lastPacket]
    rw [lastOf] at hlast
    rw [hlast, Option.getD_some]
  rw [stripDisguise, hkept]

theorem stripDisguise_none (hnone : ∀ start, ¬ FirstRun data start) : stripDisguise data = data := by
  have hstart : runStart data = none := by
    cases hstart : runStart data with
    | none => rfl
    | some start => exact absurd (runStart_eq_some.mp hstart) (hnone start)
  rw [stripDisguise, kept, hstart]
  simp

/-- Both keep the same, read for read, and what is kept of a disguised segment is whole
packets, from the first run of five to one that begins as a packet does. -/
theorem strip_alike (data : List UInt8) :
    stripRead data = .ok (stripDisguise data) ∧ Bridge.stripDisguise data = .ok (stripDisguise data) ∧
      ((stripDisguise data = data ∧ ∀ start, ¬ FirstRun data start) ∨
        ∃ start, FirstRun data start ∧ stripDisguise data <+: data.drop start ∧ 0 < (stripDisguise data).length ∧
          packet ∣ (stripDisguise data).length ∧
          (stripDisguise data)[(stripDisguise data).length - packet]? = some 0x47) := by
  have hpacket : packet = 188 := rfl
  obtain ⟨at_, hat, hfound⟩ := @startFrom_eq data (data.length + 1) 0 (by omega) (fun j hj => absurd hj (Nat.not_lt_zero j)) (by omega)
  by_cases hrun : ∃ start, FirstRun data start
  · obtain ⟨start, hrun⟩ := hrun
    have hroom := hrun.room
    have hcount : 0 < (data.length - start) / packet := Nat.div_pos (by omega) (by omega)
    have hwhole := Nat.div_mul_le_self (data.length - start) packet
    have hin : start + (data.length - start) / packet * packet ≤ data.length := by omega
    have hsync : data[start]? = some 0x47 := hrun.run 0 (by decide)
    obtain ⟨last, hlast⟩ := exists_lastOf hsync hcount
    obtain ⟨hlt, hbyte⟩ := lastOf_eq_some hlast
    have hmul : (last + 1) * packet ≤ (data.length - start) / packet * packet := Nat.mul_le_mul_right packet hlt
    have hsucc : (last + 1) * packet = last * packet + packet := Nat.succ_mul last packet
    have hkept := stripDisguise_eq hrun hlast
    have hlen : (stripDisguise data).length = (last + 1) * packet := by
      rw [hkept, List.length_drop, List.length_take]
      omega
    have hslice : data.extract start (start + (last + 1) * packet) = stripDisguise data := by
      rw [hkept, List.extract_eq_take_drop, List.drop_take]
    refine ⟨?_, ?_, .inr ⟨start, hrun, ?_, by omega, ?_, ?_⟩⟩
    · rw [stripRead, runStart_eq_some.mpr hrun]
      dsimp only
      rw [sub_eq (by omega), ok_bind, lastRead_eq hin, ok_bind, hlast, Option.getD_some, slice_eq _ (Nat.le_refl _), hkept,
        List.extract_eq_take_drop, List.take_of_length_le (by rw [List.length_drop])]
      rw [List.length_take]
      omega
    · have hstart : at_ = start := by
        rcases hfound with hfirst | ⟨-, hnone⟩
        · exact Option.some.inj ((runStart_eq_some.mpr hfirst).symm.trans (runStart_eq_some.mpr hrun))
        · exact absurd (packetsAt_iff.mpr hrun.run) (by rw [hnone start]; exact Bool.false_ne_true)
      rw [Bridge.stripDisguise, hat, ok_bind, hstart, if_neg (by omega)]
      change (Bridge.endFrom data (data.length + 1) (start + (data.length - start) / packet * packet) >>= _) = _
      have hfew := Nat.div_le_self (data.length - start) packet
      rw [endFrom_eq (by omega) hin hlast, ok_bind, slice_eq (by omega) (by omega), hslice]
    · rw [hkept, List.drop_take]
      exact List.take_prefix _ _
    · exact hlen ▸ Nat.dvd_mul_left packet (last + 1)
    · have hplace : (last + 1) * packet - packet = last * packet := by omega
      rw [hlen, hplace, hkept, List.getElem?_drop, List.getElem?_take_of_lt (by omega)]
      exact hbyte
  · have hnone : ∀ start, ¬ FirstRun data start := not_exists.mp hrun
    have hsame := stripDisguise_none hnone
    have hstart : runStart data = none := by
      cases hstart : runStart data with
      | none => rfl
      | some start => exact absurd (runStart_eq_some.mp hstart) (hnone start)
    refine ⟨?_, ?_, .inl ⟨hsame, hnone⟩⟩
    · rw [stripRead, hstart, hsame]
    · rcases hfound with hfirst | ⟨hend, -⟩
      · exact absurd hfirst (hnone at_)
      · rw [Bridge.stripDisguise, hat, ok_bind, if_pos hend, hsame]

end Hyperfetch.Hls.Vod
