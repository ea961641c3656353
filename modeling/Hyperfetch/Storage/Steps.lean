import Hyperfetch.Storage.Rehash
import Mathlib.Tactic

/-!
# The steps of a writer (`storage.rs`)

Each step leaves what a writer keeps sound: calls from their start to the
hashing of the last block they went into, the prefix hasher, and blocks
hashed back.
-/

namespace Hyperfetch

open Weft

namespace Storage

variable {D X H : Type} {L : Layout D X H} {s s' : State D X}

/-! ## What recording a call does -/

/-- The blocks a call went into are those it wrote a byte of. -/
theorem touches_iff {w : Write} (hne : w.offset < w.stop) (hstop : w.stop ≤ L.size) (i : Nat) :
    L.touches w i = true ↔ L.start i < w.stop ∧ w.offset < L.stop i := by
  have hlast : i ≤ (w.stop - 1) / L.block ↔ L.start i < w.stop := by
    rw [Nat.le_div_iff_mul_le L.block_pos]
    show L.start i ≤ w.stop - 1 ↔ L.start i < w.stop
    omega
  have hfirst : w.offset / L.block ≤ i ↔ w.offset < L.stop i := by
    rw [← Nat.lt_succ_iff, Nat.div_lt_iff_lt_mul L.block_pos, Nat.succ_mul]
    show w.offset < L.start i + L.block ↔ w.offset < min (L.start i + L.block) L.size
    omega
  rw [Layout.touches, decide_eq_true_iff, hlast, hfirst, and_comm]

theorem mem_touched {w : Write} {written : List (Nat × Nat)} {t : Touched} (ht : t ∈ s.touched L w written) :
    L.touches w t.block = true ∧ t.version = (s.blocks t.block).version + 1 ∧ t.head = (s.blocks t.block).head := by
  obtain ⟨i, hi, rfl⟩ := List.mem_map.mp ht
  obtain ⟨hlo, hhi⟩ := List.mem_range'_1.mp hi
  refine ⟨decide_eq_true ⟨hlo, ?_⟩, rfl, rfl⟩
  show i ≤ (w.stop - 1) / L.block
  omega

/-- What a call goes on from of a head ends before the call's own bytes. -/
theorem base_cases (t : Touched) (offset : Nat) :
    t.base L offset = ⟨[], L.start t.block⟩ ∨
      t.base L offset ∈ t.head ∧ (t.base L offset).end_ ≤ max offset (L.start t.block) := by
  unfold Touched.base
  cases hfilter : t.head.filter fun head => decide (head.end_ ≤ max offset (L.start t.block)) with
  | none => exact .inl rfl
  | some head =>
    obtain ⟨hmem, hle⟩ := Option.filter_eq_some_iff.mp hfilter
    exact .inr ⟨hmem, of_decide_eq_true hle⟩

/-- Recording a call settles its bytes and no other. -/
theorem unsettled_record {k : Nat} {w w' : Write} (hk : s.writes[k]? = some w) {b : Nat} (hb : ¬ w.Covers b)
    (h : Unsettled s.writes b) : Unsettled (s.writes.set k w') b :=
  (unsettled_set hk h).elim (fun hcov => (hb hcov.2).elim) id

theorem Sound.took_record {k : Nat} {w : Write} (h : Sound L s) (hk : s.writes[k]? = some w)
    (hne : w.offset < w.stop) (hstop : w.stop ≤ L.size) (hempty : w.data.isEmpty = false) {t : Touched}
    (ht : t ∈ s.touched L w (add s.written (w.offset, w.stop))) :
    (s.recorded L k w).Took L w.offset w.stop t := by
  obtain ⟨htouches, hversion, hhead⟩ := mem_touched ht
  obtain ⟨hstart, hlt⟩ := (touches_iff hne hstop t.block).mp htouches
  have hblock : ((s.recorded L k w).blocks t.block).version = t.version := by
    simp only [State.recorded, hempty, Bool.false_eq_true, if_false, htouches, if_true, hversion]
  rcases base_cases (L := L) t w.offset with hbase | ⟨hmem, hle⟩
  · have hfits : L.Fits t.block ⟨[], L.start t.block⟩ := by
      refine ⟨rfl, ?_⟩
      show L.start t.block ≤ min (L.start t.block + L.block) L.size
      omega
    refine ⟨hstart, hlt, hbase ▸ hfits, hblock.ge, fun _ => ?_⟩
    rw [hbase, placed_nil]
    exact freshIn_none _ _ _
  · obtain ⟨hfits, hfresh⟩ := (h.kept t.block).head _ (hhead ▸ hmem)
    refine ⟨hstart, hlt, hfits, hblock.ge, fun _ b hlo hhi x hx => ?_⟩
    have hbefore : b < w.offset := by
      obtain ⟨_, hx⟩ := mem_placed.mp hx
      have hlen := (List.getElem?_eq_some_iff.mp hx).1
      have hend := hfits.end_eq
      omega
    have hcov : ¬ w.Covers b := fun hcov => Nat.not_le.mpr hbefore hcov.1
    rcases hfresh b hlo hhi x hx with hun | hfile
    · refine .inl ?_
      simp only [State.recorded, hempty, Bool.false_eq_true, if_false]
      exact unsettled_record hk hcov hun
    · refine .inr ?_
      simp only [State.recorded, hempty, Bool.false_eq_true, if_false]
      exact hfile

/-- What is known of a block a call did not go into survives its recording. -/
theorem carries_record {k : Nat} {w w' : Write} {s' : State D X} (hk : s.writes[k]? = some w)
    (hwrites : s'.writes = s.writes.set k w') (hfile : s'.file = s.file) {lo hi : Nat}
    (hdisjoint : hi ≤ w.offset ∨ w.stop ≤ lo) : Carries s s' lo hi := by
  intro b hlo hhi
  have hcov : ¬ w.Covers b := by
    rintro ⟨hoffset, hstop⟩
    omega
  by_cases hun : Unsettled s.writes b
  · exact .inl (hwrites ▸ unsettled_record hk hcov hun)
  · exact .inr ⟨hun, congrFun hfile b⟩

theorem passes_record {k : Nat} {w : Write} (hk : s.writes[k]? = some w) (hne : w.offset < w.stop)
    (hstop : w.stop ≤ L.size) (hempty : w.data.isEmpty = false) : Passes L s (s.recorded L k w) := by
  have hwrites : (s.recorded L k w).writes = s.writes.set k
      { w with phase := .hashing (s.touched L w (add s.written (w.offset, w.stop))) fun _ => none } := by
    simp only [State.recorded, hempty, Bool.false_eq_true, if_false]
  have hfile : (s.recorded L k w).file = s.file := by
    simp only [State.recorded, hempty, Bool.false_eq_true, if_false]
  refine ⟨fun i => ?_, fun hre => ?_, fun v _ hold hrun m hm x hx => ?_⟩
  · by_cases htouches : L.touches w i = true
    · right
      simp only [State.recorded, hempty, Bool.false_eq_true, if_false, htouches, if_true]
      exact Nat.lt_succ_self _
    · left
      refine ⟨?_, carries_record hk hwrites hfile ?_⟩
      · simp only [State.recorded, hempty, Bool.false_eq_true, if_false, htouches]
      · rw [touches_iff hne hstop] at htouches
        omega
  · simp only [State.recorded, hempty, Bool.false_eq_true, if_false, Bool.or_eq_false_iff,
      decide_eq_false_iff_not] at hre
    exact ⟨hre.1, carries_record hk hwrites hfile (.inl (by omega))⟩
  · rw [hfile]
    exact hold hrun m hm x hx

/-! ## Calls -/

variable [DecidableEq X]

theorem Sound.write {offset : Nat} {data : List UInt8} (h : Sound L s)
    (hstep : s.step L (.write offset data) = some s') : Sound L s' := by
  simp only [State.step] at hstep
  split at hstep
  · rename_i hguard
    obtain ⟨hstop, hguard⟩ := hguard
    cases hstep
    have hcalm : Passes L s { s with writes := s.writes ++ [⟨offset, data, .landing ∅⟩] } := by
      refine passes_of_calm rfl (fun _ => rfl) rfl ?_
      rintro b ⟨w, hw, hlanding, hcovers⟩
      exact ⟨w, List.mem_append_left _ hw, hlanding, hcovers⟩
    refine h.pass hcalm h.within (fun i => .inl rfl) ?_ ?_ (fun f hf => .inl ⟨hf, rfl⟩) fun c hc => .inl hc
    · intro w hw
      rcases List.mem_append.mp hw with hw | hw
      · exact .inl hw
      · -- the new call, of which nothing landed yet
        rw [List.mem_singleton] at hw
        subst hw
        exact .inr ⟨hstop, fun _ j hj => (Finset.notMem_empty j hj).elim, fun _ _ hphase => nomatch hphase⟩
    · have hnew : ∀ v ∈ s.writes, v.running = true → ∀ b, (Write.mk offset data (.landing ∅)).Covers b →
          v.Covers b → data[b - offset]? = v.data[b - v.offset]? := by
        intro v hv hvrun b hb hvb
        exact hguard v hv hvrun b (List.mem_range'_1.mpr hb) hvb
      intro w hw hwrun v hv hvrun b hwb hvb
      rcases List.mem_append.mp hw with hw | hw <;> rcases List.mem_append.mp hv with hv | hv
      · exact h.agree w hw hwrun v hv hvrun b hwb hvb
      · rw [List.mem_singleton] at hv
        subst hv
        exact (hnew w hw hwrun b hvb hwb).symm
      · rw [List.mem_singleton] at hw
        subst hw
        exact hnew v hv hvrun b hwb hvb
      · rw [List.mem_singleton] at hw hv
        subst hw
        subst hv
        rfl
  · cases hstep

theorem Sound.land {k j : Nat} (h : Sound L s) (hstep : s.step L (.land k j) = some s') : Sound L s' := by
  simp only [State.step] at hstep
  split at hstep
  · rename_i offset data landed hk
    obtain ⟨byte, hbyte, rfl⟩ := Option.map_eq_some_iff.mp hstep
    have hwmem := List.mem_of_getElem? hk
    have hklt := (List.getElem?_eq_some_iff.mp hk).1
    have hjlt := (List.getElem?_eq_some_iff.mp hbyte).1
    have hcovers : (Write.mk offset data (.landing landed)).Covers (offset + j) :=
      ⟨Nat.le_add_right _ _, Nat.add_lt_add_left hjlt _⟩
    have hself : ∀ b, (Write.mk offset data (.landing landed)).Covers b →
        Unsettled (s.writes.set k ⟨offset, data, .landing (insert j landed)⟩) b :=
      fun b hb => ⟨_, List.mem_set hklt _, rfl, hb⟩
    have hwrites : ∀ b, Unsettled s.writes b →
        Unsettled (s.writes.set k ⟨offset, data, .landing (insert j landed)⟩) b :=
      fun b hb => (unsettled_set hk hb).elim (fun hcov => hself b hcov.2) id
    have hfile : ∀ b, Function.update s.file (offset + j) byte b = s.file b ∨
        Unsettled (s.writes.set k ⟨offset, data, .landing (insert j landed)⟩) b := by
      intro b
      by_cases hb : b = offset + j
      · exact .inr (hself b (hb ▸ hcovers))
      · exact .inl (Function.update_of_ne hb _ _)
    -- a running call that writes the byte writes the same
    have hholds : ∀ v ∈ s.writes, v.running = true → ∀ m, ∀ x ∈ v.data[m]?, (v.Has m → s.file (v.offset + m) = x) →
        v.Has m ∨ v.offset + m = offset + j → Function.update s.file (offset + j) byte (v.offset + m) = x := by
      intro v hv hvrun m x hx hold hm
      by_cases hb : v.offset + m = offset + j
      · have hmlt := (List.getElem?_eq_some_iff.mp hx).1
        have hvcov : v.Covers (offset + j) := hb ▸ ⟨Nat.le_add_right _ _, Nat.add_lt_add_left hmlt _⟩
        have hsame := h.agree _ hwmem rfl v hv hvrun (offset + j) hcovers hvcov
        rw [Nat.add_sub_cancel_left, hbyte, ← hb, Nat.add_sub_cancel_left, hx] at hsame
        rw [hb, Function.update_self]
        exact Option.some.inj hsame
      · rw [Function.update_of_ne hb]
        exact hold (hm.resolve_right hb)
    have hpass : Passes L s { s with
        file := Function.update s.file (offset + j) byte
        writes := s.writes.set k ⟨offset, data, .landing (insert j landed)⟩ } := by
      refine ⟨fun i => .inl ⟨rfl, carries_of hwrites hfile _ _⟩, fun hre => ⟨hre, carries_of hwrites hfile _ _⟩, ?_⟩
      intro v hv hold hvrun m hm x hx
      exact hholds v hv hvrun m x hx (fun hm => hold hvrun m hm x hx) (.inl hm)
    have hruns := h.runs _ hwmem
    refine h.pass hpass h.within (fun i => .inl rfl) ?_ (h.agree_set hk rfl rfl fun _ => rfl)
      (fun f hf => .inl ⟨hf, rfl⟩) fun c hc => .inl hc
    intro v hv
    rcases List.mem_or_eq_of_mem_set hv with hv | rfl
    · exact .inl hv
    · refine .inr ⟨hruns.stop_le, fun _ m hm x hx => ?_, fun _ _ hphase => nomatch hphase⟩
      refine hholds _ hwmem rfl m x hx (fun hm => hruns.holds rfl m hm x hx) ?_
      rcases Finset.mem_insert.mp hm with rfl | hm
      · exact .inr rfl
      · exact .inl hm
  · cases hstep

theorem Sound.readBack {k b : Nat} (h : Sound L s) (hstep : s.step L (.readBack k b) = some s') : Sound L s' := by
  simp only [State.step] at hstep
  split at hstep
  · rename_i offset data t touched seen hk
    cases hstep
    have hwmem := List.mem_of_getElem? hk
    have hcalm : Passes L s { s with
        writes := s.writes.set k ⟨offset, data, .hashing (t :: touched) (Function.update seen b (some (s.file b)))⟩ } :=
      passes_of_calm rfl (fun _ => rfl) rfl fun c hc =>
        (unsettled_set hk hc).elim (fun hcov => Bool.noConfusion hcov.1) id
    have hruns := (h.runs _ hwmem).pass hcalm hwmem
    refine h.pass hcalm h.within (fun i => .inl rfl) ?_ (h.agree_set hk rfl rfl fun _ => rfl)
      (fun f hf => .inl ⟨hf, rfl⟩) fun c hc => .inl hc
    intro v hv
    rcases List.mem_or_eq_of_mem_set hv with hv | rfl
    · exact .inl hv
    · obtain ⟨htook, hfirst⟩ := hruns.took _ _ rfl
      refine .inr ⟨hruns.stop_le, fun _ m _ x hx => hruns.holds rfl m trivial x hx, ?_⟩
      rintro _ _ ⟨⟩
      refine ⟨htook, ?_⟩
      rintro _ ⟨⟩
      have hclaim := hfirst t rfl
      exact ⟨hclaim.le, fun hv => (hclaim.fresh hv).read b⟩
  · cases hstep

theorem Sound.record {k : Nat} (h : Sound L s) (hstep : s.step L (.record k) = some s') : Sound L s' := by
  simp only [State.step] at hstep
  split at hstep
  · rename_i offset data landed hk
    split at hstep
    · rename_i hlanded
      cases hstep
      have hwmem := List.mem_of_getElem? hk
      have hruns := h.runs _ hwmem
      have hheld : ∀ m, ∀ x ∈ data[m]?, s.file (offset + m) = x := by
        intro m x hx
        have hm := (List.getElem?_eq_some_iff.mp hx).1
        exact hruns.holds rfl m (hlanded m (List.mem_range.mpr hm)) x hx
      by_cases hempty : data.isEmpty = true
      · have hcov : ∀ b, ¬ (Write.mk offset data (.landing landed)).Covers b := by
          rintro b ⟨hlo, hhi⟩
          rw [Write.stop, List.isEmpty_iff.mp hempty] at hhi
          exact Nat.not_lt.mpr hlo hhi
        simp only [State.recorded, hempty, if_true]
        have hcalm : Passes L s { s with writes := s.writes.set k ⟨offset, data, .hashing [] fun _ => none⟩ } :=
          passes_of_calm rfl (fun _ => rfl) rfl fun b hb => unsettled_record hk (hcov b) hb
        refine h.pass hcalm h.within (fun i => .inl rfl) ?_ (h.agree_set hk rfl rfl fun _ => rfl)
          (fun f hf => .inl ⟨hf, rfl⟩) fun c hc => .inl hc
        intro v hv
        rcases List.mem_or_eq_of_mem_set hv with hv | rfl
        · exact .inl hv
        · refine .inr ⟨hruns.stop_le, fun hrun => Bool.noConfusion hrun, ?_⟩
          rintro _ _ ⟨⟩
          exact ⟨fun t ht => (List.not_mem_nil ht).elim, fun t ht => (Option.not_mem_none t ht).elim⟩
      · rw [Bool.not_eq_true] at hempty
        have hne : offset < offset + data.length := by
          have := List.length_pos_iff.mpr (List.isEmpty_eq_false_iff.mp hempty)
          omega
        have hpass := passes_record (L := L) hk hne hruns.stop_le hempty
        have htook := fun t ht => h.took_record (t := t) hk hne hruns.stop_le hempty ht
        simp only [State.recorded, hempty, Bool.false_eq_true, if_false] at hpass htook ⊢
        refine h.pass hpass (add_le h.within hruns.stop_le) (fun i => ?_) (fun v hv => ?_)
          (h.agree_set hk rfl rfl fun _ => rfl) (fun f hf => .inl ⟨hf, rfl⟩) fun c hc => .inl hc
        · by_cases htouches : L.touches ⟨offset, data, .landing landed⟩ i = true
          · -- the block's hash and head are gone
            right
            refine ⟨fun d hd => ?_, fun head hh => ?_⟩
            · simp only [htouches, if_true] at hd
              exact (Option.not_mem_none d hd).elim
            · simp only [htouches, if_true] at hh
              exact (Option.not_mem_none head hh).elim
          · left
            exact if_neg htouches
        · rcases List.mem_or_eq_of_mem_set hv with hv | rfl
          · exact .inl hv
          · refine .inr ⟨hruns.stop_le, fun _ m _ x hx => hheld m x hx, ?_⟩
            rintro touched _ ⟨⟩
            refine ⟨htook, fun t ht => ?_⟩
            have hclaim := (htook t (List.mem_of_mem_head? ht)).claim
            exact ⟨hclaim.le, fun _ => freshIn_none _ _ _⟩
    · cases hstep
  · cases hstep

/-! ### A block a call went into is hashed -/

omit [DecidableEq X] in
/-- A head gone on with is of the block's bytes. -/
theorem Sound.goOn (h : Sound L s) {w : Write} (hw : w ∈ s.writes) (hrun : w.running = true)
    (hlanding : w.isLanding = false) {t : Touched} (htook : s.Took L w.offset w.stop t)
    (hversion : (s.blocks t.block).version = t.version) :
    L.Fits t.block (t.goOn L w.offset w.data) ∧
      s.FreshIn (L.start t.block) (L.stop t.block) (placed (L.start t.block) (t.goOn L w.offset w.data).bytes) := by
  obtain ⟨hstart, hlt, ⟨hend, hle⟩, hclaim⟩ := htook
  have hfresh := hclaim.fresh hversion
  have hgo : t.goOn L w.offset w.data =
      if (t.base L w.offset).end_ = max w.offset (L.start t.block) then
        ⟨(t.base L w.offset).bytes ++ slice w.data ⟨max w.offset (L.start t.block) - w.offset,
          min (w.offset + w.data.length) (L.stop t.block) - max w.offset (L.start t.block)⟩,
          min (w.offset + w.data.length) (L.stop t.block)⟩
      else t.base L w.offset := rfl
  rw [hgo]
  split
  · rename_i hnext
    have hstop : w.stop = w.offset + w.data.length := rfl
    have hlen : (slice w.data ⟨max w.offset (L.start t.block) - w.offset,
        min (w.offset + w.data.length) (L.stop t.block) - max w.offset (L.start t.block)⟩).length =
          min (w.offset + w.data.length) (L.stop t.block) - max w.offset (L.start t.block) := by
      apply length_slice
      show max w.offset (L.start t.block) - w.offset +
        (min (w.offset + w.data.length) (L.stop t.block) - max w.offset (L.start t.block)) ≤ w.data.length
      omega
    refine ⟨⟨?_, Nat.min_le_right _ _⟩, hfresh.append ?_⟩
    · rw [List.length_append, hlen]
      show min (w.offset + w.data.length) (L.stop t.block) = _
      omega
    · rw [← hend, hnext]
      exact ((h.runs w hw).holds).slice hrun hlanding (Nat.le_max_left _ _) _ _
  · exact ⟨⟨hend, hle⟩, hfresh⟩

omit [DecidableEq X] in
theorem kept_eq (t : Touched) (w : Write) (seen : Nat → Option UInt8) (readOk : Bool) (b : Block D) :
    t.kept L w seen readOk b =
      if sameVersion b.version t.version then
        if t.complete then
          { b with
            hash := if readOk then some (L.hashBlock t.block ((t.goOn L w.offset w.data).bytes ++
              seenBytes seen (t.goOn L w.offset w.data).end_ (L.stop t.block))) else none
            hashing := false }
        else if L.start t.block < (t.goOn L w.offset w.data).end_ then
          { b with head := some (t.goOn L w.offset w.data) }
        else b
      else b := rfl

omit [DecidableEq X] in
theorem kept_version (t : Touched) (w : Write) (seen : Nat → Option UInt8) (readOk : Bool) (b : Block D) :
    (t.kept L w seen readOk b).version = b.version := by
  rw [kept_eq]
  repeat' split
  all_goals rfl

omit [DecidableEq X] in
/-- What a call makes of a block is of the block's bytes. -/
theorem Sound.kept_keep (h : Sound L s) (hpatient : s.Patient) {w : Write} (hw : w ∈ s.writes) {t : Touched}
    {touched : List Touched} {seen : Nat → Option UInt8} (hphase : w.phase = .hashing (t :: touched) seen)
    {readOk : Bool}
    (hsaw : t.complete = true ∧ readOk = true →
      sawAll seen (t.goOn L w.offset w.data).end_ (L.stop t.block) = true)
    (hwrites : ∀ b, Unsettled s.writes b → Unsettled s'.writes b) (hfile : s'.file = s.file)
    (hblock : s'.blocks t.block = t.kept L w seen readOk (s.blocks t.block)) : s'.Kept L t.block := by
  have hold := h.kept t.block
  have hcarry : Carries s s' (L.start t.block) (L.stop t.block) :=
    carries_of hwrites (fun b => .inl (congrFun hfile b)) _ _
  rw [kept_eq] at hblock
  by_cases hsame : sameVersion (s.blocks t.block).version t.version = true
  · obtain ⟨htook, hfirst⟩ := (h.runs w hw).took _ _ hphase
    have hclaim := hfirst t rfl
    have hflight := mem_inFlight_touched hw hphase List.mem_cons_self
    have hversion := eq_of_sameVersion hclaim.le (hpatient _ hflight) hsame
    have hrun : w.running = true := by rw [Write.running, hphase]; rfl
    have hlanding : w.isLanding = false := by rw [Write.isLanding, hphase]
    obtain ⟨⟨hend, hle⟩, hfresh⟩ := h.goOn hw hrun hlanding (htook t List.mem_cons_self) hversion
    rw [if_pos hsame] at hblock
    by_cases hcomplete : t.complete = true
    · rw [if_pos hcomplete] at hblock
      refine ⟨fun d hd => ?_, fun head hh => ?_⟩
      · rw [hblock] at hd
        by_cases hread : readOk = true
        · -- the head and the rest as it was read back are the whole block
          simp only [hread, if_true, Option.mem_some] at hd
          refine ⟨_, ?_, hd.symm, (hfresh.append ?_).carry hcarry⟩
          · rw [List.length_append, length_seenBytes]
            omega
          · rw [← hend]
            exact (hclaim.fresh hversion).seen (hsaw ⟨hcomplete, hread⟩)
        · simp only [hread, Bool.false_eq_true, if_false] at hd
          exact (Option.not_mem_none d hd).elim
      · rw [hblock] at hh
        obtain ⟨hfits, hhead⟩ := hold.head head hh
        exact ⟨hfits, hhead.carry hcarry⟩
    · rw [if_neg hcomplete] at hblock
      split at hblock
      · refine ⟨fun d hd => ?_, fun head hh => ?_⟩
        · rw [hblock] at hd
          obtain ⟨bytes, hlen, heq, hbytes⟩ := hold.hash d hd
          exact ⟨bytes, hlen, heq, hbytes.carry hcarry⟩
        · rw [hblock, Option.mem_some] at hh
          subst hh
          exact ⟨⟨hend, hle⟩, hfresh.carry hcarry⟩
      · exact hold.carry hcarry (fun d hd => hblock ▸ hd) fun head hh => hblock ▸ hh
  · rw [if_neg hsame] at hblock
    exact hold.carry hcarry (fun d hd => hblock ▸ hd) fun head hh => hblock ▸ hh

theorem Sound.keep {k : Nat} {readOk : Bool} (h : Sound L s) (hpatient : s.Patient)
    (hstep : s.step L (.keep k readOk) = some s') : Sound L s' := by
  simp only [State.step] at hstep
  split at hstep
  · rename_i offset data t touched seen hk
    split at hstep
    · rename_i hsaw
      cases hstep
      have hwmem := List.mem_of_getElem? hk
      have hruns := h.runs _ hwmem
      obtain ⟨htook, _⟩ := hruns.took _ _ rfl
      have hwrites : ∀ b, Unsettled s.writes b →
          Unsettled (s.writes.set k ⟨offset, data, .hashing touched fun _ => none⟩) b :=
        fun b hb => (unsettled_set hk hb).elim (fun hcov => Bool.noConfusion hcov.1) id
      have hcalm : Passes L s { s with
          blocks := Function.update s.blocks t.block
            (t.kept L ⟨offset, data, .hashing (t :: touched) seen⟩ seen readOk (s.blocks t.block))
          writes := s.writes.set k ⟨offset, data, .hashing touched fun _ => none⟩ } := by
        refine passes_of_calm rfl (fun i => ?_) rfl hwrites
        show (Function.update s.blocks t.block _ i).version = (s.blocks i).version
        by_cases hi : i = t.block
        · subst hi
          rw [Function.update_self]
          exact kept_version _ _ _ _ _
        · rw [Function.update_of_ne hi]
      refine h.pass hcalm h.within (fun i => ?_) (fun v hv => ?_) (h.agree_set hk rfl rfl fun _ => rfl)
        (fun f hf => .inl ⟨hf, rfl⟩) fun c hc => .inl hc
      · by_cases hi : i = t.block
        · subst hi
          exact .inr (h.kept_keep hpatient hwmem rfl hsaw hwrites rfl (Function.update_self _ _ _))
        · exact .inl (Function.update_of_ne hi _ _)
      · rcases List.mem_or_eq_of_mem_set hv with hv | rfl
        · exact .inl hv
        · refine .inr ⟨hruns.stop_le, fun _ m _ x hx => hruns.holds rfl m trivial x hx, ?_⟩
          rintro _ _ ⟨⟩
          refine ⟨fun u hu => (htook u (List.mem_cons_of_mem _ hu)).pass hcalm, fun u hu => ?_⟩
          have hclaim := ((htook u (List.mem_cons_of_mem _ (List.mem_of_mem_head? hu))).pass hcalm).claim
          exact ⟨hclaim.le, fun _ => freshIn_none _ _ _⟩
    · cases hstep
  · cases hstep

end Storage

end Hyperfetch
