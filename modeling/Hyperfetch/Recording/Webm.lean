import Hyperfetch.Recording.Layout

/-!
# Where a WebM's media begins (`webm_init_len`)

`ebml_element` reads an element's ID and size, each with its own length marked in its
first byte. `webm_init_len` goes from the EBML header into the Segment and through its
elements up to the first Cluster (`FirstCluster`). `layoutOf` is the layout of any part.
-/

namespace Hyperfetch.Recording

open Weft Checked

/-- `leading_zeros` of a byte. -/
def leadingZeros (b : UInt8) : Nat := 8 - b.toNat.size

/-- A size without its length marker. -/
def sizeOf (first : UInt8) (sizeLen : Nat) (rest : List UInt8) : Nat :=
  rest.foldl (fun size b => size * 256 + b.toNat) (first.toNat &&& (0xFF >>> sizeLen))

/-- `ebml_element`: an ID, the size if it is known, and where the content starts. -/
def ebmlElement (data : List UInt8) (at_ : Nat) : OptionT (Checked Empty) (Nat × Option Nat × Nat) := do
  let first ← ask data[at_]?
  let idLen := leadingZeros first + 1
  if 4 < idLen then ask none
  else do
    let sizeAt ← liftM (add at_ idLen : Checked Empty Nat)
    let id ← ask (getSlice data at_ sizeAt)
    let first ← ask data[sizeAt]?
    let sizeLen := leadingZeros first + 1
    if 8 < sizeLen then ask none
    else do
      let content ← liftM (add sizeAt sizeLen : Checked Empty Nat)
      let bytes ← ask (getSlice data sizeAt content)
      let rest ← liftM (slice bytes 1 bytes.length : Checked Empty (List UInt8))
      let size := sizeOf first sizeLen rest
      pure (beValue id, if size = 2 ^ (7 * sizeLen) - 1 then none else some size, content)

def ebmlId : Nat := 0x1A45DFA3

def segmentId : Nat := 0x18538067

def clusterId : Nat := 0x1F43B675

/-- The loop of `webm_init_len`; out of turns it would go on for ever. -/
def clusterFrom (head : List UInt8) : Nat → Nat → OptionT (Checked Empty) Nat
  | 0, _ => liftM (fault : Checked Empty Nat)
  | turns + 1, at_ => do
    let (id, size, content) ← ebmlElement head at_
    if id = clusterId then pure at_
    else do
      let size ← ask size
      let after ← ask (if content + size ≤ wordMax then some (content + size) else none)
      clusterFrom head turns after

/-- `webm_init_len`. -/
def webmInitLen (head : List UInt8) : OptionT (Checked Empty) Nat := do
  let (id, size, content) ← ebmlElement head 0
  if id ≠ ebmlId then ask none
  else do
    let size ← ask size
    let after ← liftM (add content size : Checked Empty Nat)
    let (id, _, content) ← ebmlElement head after
    if id ≠ segmentId then ask none else clusterFrom head (head.length + 1) content

/-- `WEBM_HEAD`. -/
def webmHead : Nat := 4 * 2 ^ 20

/-- A part that is one run without an init segment. -/
def plainLayout (len : Nat) : Layout := ⟨[], [⟨0, len, none⟩]⟩

/-- `Layout::of`. -/
def layoutOf (part : List UInt8) : Checked Empty Layout :=
  if getSlice part 0 4 = some [0x1A, 0x45, 0xDF, 0xA3] then do
    let head ← slice part 0 (min part.length webmHead)
    match ← (webmInitLen head).run with
    | some init => do
      let len ← sub part.length init
      .ok ⟨[(0, init)], [⟨init, len, none⟩]⟩
    | none => .ok (plainLayout part.length)
  else do
    match ← fmp4Layout part with
    | some layout => .ok layout
    | none => .ok (plainLayout part.length)

/-! ## Elements -/

/-- The element at `at_`. -/
def HasElement (data : List UInt8) (at_ id : Nat) (size : Option Nat) (content : Nat) : Prop :=
  (ebmlElement data at_).run = .ok (some (id, size, content))

/-- Elements of known sizes side by side from `a` to `b`, none of them a Cluster. -/
inductive Siblings (data : List UInt8) : Nat → Nat → Prop
  | refl (a : Nat) : Siblings data a a
  | step {a id size content b : Nat} : HasElement data a id (some size) content → id ≠ clusterId →
      Siblings data (content + size) b → Siblings data a b

/-- The first Cluster of the Segment behind the EBML header begins at `n`. -/
def FirstCluster (data : List UInt8) (n : Nat) : Prop :=
  ∃ size content, HasElement data 0 ebmlId (some size) content ∧
    ∃ whole start, HasElement data (content + size) segmentId whole start ∧ Siblings data start n ∧
      ∃ size content, HasElement data n clusterId size content

theorem foldl_size_lt (rest : List UInt8) {first bound : Nat} (h : first < bound) :
    rest.foldl (fun size b => size * 256 + b.toNat) first < bound * 256 ^ rest.length := by
  induction rest generalizing first bound with
  | nil => simpa using h
  | cons b rest ih =>
    have hb : b.toNat < 256 := b.toNat_lt
    have hnext : first * 256 + b.toNat < bound * 256 := by omega
    rw [List.foldl_cons, List.length_cons, Nat.pow_succ', ← Nat.mul_assoc]
    exact ih hnext

/-- A size is of seven bits a byte. -/
theorem sizeOf_lt (first : UInt8) {sizeLen : Nat} (hpos : 0 < sizeLen) (hle : sizeLen ≤ 8) {rest : List UInt8}
    (hrest : rest.length = sizeLen - 1) : sizeOf first sizeLen rest < 2 ^ 56 := by
  have hfirst : (first.toNat &&& (0xFF >>> sizeLen)) < 2 ^ (8 - sizeLen) := by
    refine Nat.lt_of_le_of_lt Nat.and_le_right ?_
    interval_cases sizeLen <;> decide
  have hsize := foldl_size_lt rest hfirst
  refine Nat.lt_of_lt_of_le hsize ?_
  rw [hrest]
  interval_cases sizeLen <;> decide

/-- An element begins within the data, and its content behind it. -/
theorem ebmlElement_safe (data : Slice) (at_ : Nat) :
    Finds (ebmlElement data.bytes at_) fun e =>
      at_ < data.bytes.length ∧ at_ + 2 ≤ e.2.2 ∧ e.2.2 ≤ data.bytes.length ∧ ∀ size, e.2.1 = some size → size < 2 ^ 56 := by
  have hlen := data.length_le
  refine (finds_ask _).bind fun first hfirst => ?_
  obtain ⟨hat, -⟩ := List.getElem?_eq_some_iff.mp hfirst
  extract_lets idLen
  split
  next => exact (finds_ask none).imp fun a ha => nomatch ha
  next hid =>
    refine (finds_lift (meets_add (by unfold wordMax; omega))).bind fun sizeAt hsizeAt => ?_
    refine (finds_ask _).bind fun id _ => (finds_ask _).bind fun first hfirst => ?_
    obtain ⟨hin, -⟩ := List.getElem?_eq_some_iff.mp hfirst
    extract_lets sizeLen
    split
    next => exact (finds_ask none).imp fun a ha => nomatch ha
    next hsizeLen =>
      refine (finds_lift (meets_add (by unfold wordMax; omega))).bind fun content hcontent => ?_
      refine (finds_ask _).bind fun bytes hbytes => ?_
      obtain ⟨-, hstop, rfl⟩ := getSlice_eq_some.mp hbytes
      have hbytesLen : (data.bytes.extract sizeAt content).length = sizeLen := by
        rw [length_extract hstop]
        omega
      have hpos : 0 < sizeLen := Nat.succ_pos _
      have hone : 0 < idLen := Nat.succ_pos _
      refine (finds_lift (meets_slice (by omega) (Nat.le_refl _))).bind fun rest hrest => finds_pure ?_
      refine ⟨hat, ?_, hstop, fun size hsize => ?_⟩
      · show at_ + 2 ≤ content
        omega
      · have hrestLen : rest.length = sizeLen - 1 := by
          rw [hrest, length_extract (Nat.le_refl _), hbytesLen]
        have hlt := sizeOf_lt first hpos (Nat.le_of_not_lt hsizeLen) hrestLen
        dsimp only at hsize
        split at hsize
        next => cases hsize
        next =>
          cases hsize
          exact hlt

/-! ## The first Cluster -/

/-- Where an element is left, if its size is known. -/
theorem content_add_le (data : Slice) {content size : Nat} (hcontent : content ≤ data.bytes.length) (hsize : size < 2 ^ 56) :
    content + size ≤ wordMax := by
  have hlen := data.length_le
  unfold wordMax
  omega

theorem clusterFrom_safe (data : Slice) {turns at_ : Nat} (hpos : 0 < turns) (hturns : data.bytes.length < turns + at_) :
    Finds (clusterFrom data.bytes turns at_) fun n =>
      n < data.bytes.length ∧ Siblings data.bytes at_ n ∧ ∃ size content, HasElement data.bytes n clusterId size content := by
  induction turns generalizing at_ with
  | zero => exact absurd hpos (Nat.lt_irrefl 0)
  | succ turns ih =>
    refine (ebmlElement_safe data at_).run.bind fun e he => ?_
    obtain ⟨id, size, content⟩ := e
    obtain ⟨⟨hat, hbehind, hin, hsize⟩, helement⟩ := he
    dsimp only at hbehind ⊢
    split
    next hid =>
      subst hid
      exact finds_pure ⟨hat, .refl at_, size, content, helement⟩
    next hid =>
      refine (finds_ask _).bind fun known hknown => ?_
      have hfits := content_add_le data hin (hsize known hknown)
      rw [if_pos hfits]
      refine (finds_ask _).bind fun after hafter => ?_
      cases hafter
      refine (ih (by omega) (by omega)).imp fun n hn => ?_
      obtain ⟨hlt, hsiblings, hcluster⟩ := hn
      refine ⟨hlt, .step ?_ hid hsiblings, hcluster⟩
      rw [← hknown]
      exact helement

/-- The length of an init segment is where the first Cluster begins. -/
theorem webmInitLen_safe (head : Slice) :
    Finds (webmInitLen head.bytes) fun n => n < head.bytes.length ∧ FirstCluster head.bytes n := by
  refine (ebmlElement_safe head 0).run.bind fun e he => ?_
  obtain ⟨id, size, content⟩ := e
  obtain ⟨⟨-, -, hin, hsize⟩, hheader⟩ := he
  dsimp only
  split
  next => exact (finds_ask none).imp fun a ha => nomatch ha
  next hid =>
    rw [not_not] at hid
    subst hid
    refine (finds_ask _).bind fun known hknown => ?_
    have hfits := content_add_le head hin (hsize known hknown)
    refine (finds_lift (meets_add hfits)).bind fun after hafter => ?_
    subst hafter
    refine (ebmlElement_safe head (content + known)).run.bind fun e he => ?_
    obtain ⟨id, whole, start⟩ := e
    obtain ⟨-, hsegment⟩ := he
    dsimp only
    split
    next => exact (finds_ask none).imp fun a ha => nomatch ha
    next hid =>
      rw [not_not] at hid
      subst hid
      refine (clusterFrom_safe head (Nat.succ_pos _) (by omega)).imp fun n hn => ⟨hn.1, known, content, ?_, whole, start, hsegment, hn.2⟩
      rw [← hknown]
      exact hheader

/-! ## The head of a part -/

theorem getSlice_append {data part : List UInt8} {first stop : Nat} (h : getSlice data first stop = some part)
    (more : List UInt8) : getSlice (data ++ more) first stop = some part := by
  obtain ⟨hle, hin, rfl⟩ := getSlice_eq_some.mp h
  refine getSlice_eq_some.mpr ⟨hle, ?_, ?_⟩
  · rw [List.length_append]
    exact Nat.le_trans hin (Nat.le_add_right _ _)
  · rw [List.extract_eq_take_drop, List.extract_eq_take_drop, List.drop_append_of_le_length (Nat.le_trans hle hin),
      List.take_append_of_le_length]
    rw [List.length_drop]
    exact Nat.sub_le_sub_right hin first

/-- An element of the head is one of the whole part. -/
theorem HasElement.append {head : List UInt8} {at_ id content : Nat} {size : Option Nat} (h : HasElement head at_ id size content)
    (more : List UInt8) : HasElement (head ++ more) at_ id size content := by
  have hget {i : Nat} {b : UInt8} (hb : head[i]? = some b) : (head ++ more)[i]? = some b := by
    obtain ⟨hi, -⟩ := List.getElem?_eq_some_iff.mp hb
    rw [List.getElem?_append_left hi, hb]
  unfold HasElement ebmlElement at h ⊢
  obtain ⟨first, hfirst, h⟩ := bind_run.mp h
  refine bind_run.mpr ⟨first, ask_run.mpr (hget (ask_run.mp hfirst)), ?_⟩
  dsimp only at h ⊢
  split at h
  next => cases h
  next hid =>
    rw [if_neg hid]
    obtain ⟨sizeAt, hsizeAt, h⟩ := bind_run.mp h
    obtain ⟨idBytes, hidBytes, h⟩ := bind_run.mp h
    obtain ⟨first, hfirst, h⟩ := bind_run.mp h
    refine bind_run.mpr ⟨sizeAt, hsizeAt, bind_run.mpr ⟨idBytes, ask_run.mpr (getSlice_append (ask_run.mp hidBytes) more),
      bind_run.mpr ⟨first, ask_run.mpr (hget (ask_run.mp hfirst)), ?_⟩⟩⟩
    split at h
    next => cases h
    next hsizeLen =>
      rw [if_neg hsizeLen]
      obtain ⟨content, hcontent, h⟩ := bind_run.mp h
      obtain ⟨bytes, hbytes, h⟩ := bind_run.mp h
      exact bind_run.mpr ⟨content, hcontent, bind_run.mpr ⟨bytes, ask_run.mpr (getSlice_append (ask_run.mp hbytes) more), h⟩⟩

theorem Siblings.append {head : List UInt8} {a b : Nat} (h : Siblings head a b) (more : List UInt8) : Siblings (head ++ more) a b := by
  induction h with
  | refl a => exact .refl a
  | step helement hid _ ih => exact .step (helement.append more) hid ih

theorem FirstCluster.append {head : List UInt8} {n : Nat} (h : FirstCluster head n) (more : List UInt8) :
    FirstCluster (head ++ more) n := by
  obtain ⟨size, content, hheader, whole, start, hsegment, hsiblings, size', content', hcluster⟩ := h
  exact ⟨size, content, hheader.append more, whole, start, hsegment.append more, hsiblings.append more, size', content',
    hcluster.append more⟩

/-- The head of a part is read alike. -/
theorem webmInitLen_head (part : Slice) :
    Finds (webmInitLen (part.bytes.take webmHead)) fun n => n ≤ part.bytes.length ∧ FirstCluster part.bytes n := by
  have hlen := part.length_le
  have hshort : (part.bytes.take webmHead).length < 2 ^ 63 := by
    rw [List.length_take]
    omega
  refine (webmInitLen_safe ⟨part.bytes.take webmHead, hshort⟩).imp fun n hn => ⟨?_, ?_⟩
  · have hlt : n < (part.bytes.take webmHead).length := hn.1
    rw [List.length_take] at hlt
    omega
  · have hcluster := hn.2.append (part.bytes.drop webmHead)
    rwa [List.take_append_drop] at hcluster

/-- A recorded part is laid out without a fault whatever its bytes, and soundly. -/
theorem recorded_part_safe (part : Slice) :
    (Meets (fmp4Layout part.bytes) fun found => ∀ l, found = some l → Sound part.bytes l) ∧
      (Finds (webmInitLen (part.bytes.take webmHead)) fun n => n ≤ part.bytes.length ∧ FirstCluster part.bytes n) ∧
      ∀ at_, Meets (boxAt part.bytes at_) (fun found => ∀ b, found = some b → b.Within at_ part.bytes.length) ∧
        Finds (fragmentKey part.bytes) fun _ => True :=
  ⟨fmp4Layout_safe part, webmInitLen_head part, fun at_ => ⟨boxAt_safe part.bytes at_, fragmentKey_safe part⟩⟩


end Hyperfetch.Recording
